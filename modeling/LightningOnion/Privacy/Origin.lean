import LightningOnion.Failure.Return

/-! What the hops learn of where a failure comes from.

A failure comes back through every hop before the one that raised it. Each of them sees
292 bytes under the layer of the hop behind it, whose keystream covers all of them; so
what hops `0, …, j` see of a failure, together, they could have seen of any other
failure raised anywhere behind hop `j` (`origin_hidden`). Only the sender, who knows the
layer's key, can tell. -/
namespace LightningOnion
open Lib

section
variable (P : Primitives)

/-- The same cryptography, but for the keystream of one key. -/
def Primitives.withStream (key : Bytes 32) (stream : Nat → UInt8) : Primitives :=
  {P with chacha20 := Function.update P.chacha20 key stream}

/-- The key of a hop's layer. -/
def OnionErrorEncrypter.ammagKey (o : OnionErrorEncrypter) : Bytes 32 :=
  generateKey P .ammag o.sharedSecret

/-- The failure of hop `k` as hop `i` sends it back, to hop `i - 1` or to the sender. -/
def sentBy (enc : Nat → OnionErrorEncrypter) (k : Nat) (message : List UInt8) (i : Nat) : List UInt8 :=
  returnedFailure P (fun n => enc (i + n)) (k - i) message

end

/-! ### Layer by layer -/

section Layers
variable (P : Primitives) (enc : Nat → OnionErrorEncrypter)

theorem passedOn_succ (d : Nat) (data : List UInt8) : passedOn P enc (d + 1) data =
    (enc 0).encryptError P false (passedOn P (fun n => enc (n + 1)) d data) := by
  induction d generalizing data with
  | zero => rfl
  | succ d ih => rw [passedOn, ih, passedOn]

variable {k : Nat} (message : List UInt8)

theorem sentBy_self : sentBy P enc k message k = (enc k).encryptError P true message := by
  rw [sentBy, Nat.sub_self]
  rfl

theorem sentBy_of_lt {i : Nat} (hi : i < k) : sentBy P enc k message i =
    (enc i).encryptError P false (sentBy P enc k message (i + 1)) := by
  obtain ⟨d, rfl⟩ : ∃ d, k = i + d + 1 := ⟨k - i - 1, by omega⟩
  have hsub : i + d + 1 - i = d + 1 := by omega
  have hsub' : i + d + 1 - (i + 1) = d := by omega
  have hshift : (fun n => enc (i + (n + 1))) = fun n => enc (i + 1 + n) :=
    funext fun n => congrArg enc (by omega)
  have hlast : enc (i + (d + 1)) = enc (i + 1 + d) := congrArg enc (by omega)
  rw [sentBy, sentBy, hsub, hsub', returnedFailure, returnedFailure, passedOn_succ, hshift, hlast]
  rfl

theorem length_sentBy {message : List UInt8} (hlen : message.length = 260) (i : Nat) :
    (sentBy P enc k message i).length = onionErrorLength :=
  length_returnedFailure P _ _ hlen

/-- What the layer of hop `i` lies on. -/
def underLayer (k : Nat) (message : List UInt8) (i : Nat) : List UInt8 :=
  if i < k then sentBy P enc k message (i + 1)
  else (calcMac P (generateKey P .um (enc k).sharedSecret) message).toList ++ message

theorem sentBy_eq {i : Nat} (hi : i ≤ k) : sentBy P enc k message i =
    onionEncrypt P (enc i).sharedSecret (underLayer P enc k message i) := by
  rcases Nat.lt_or_eq_of_le hi with hlt | rfl
  · rw [sentBy_of_lt P enc message hlt, underLayer, if_pos hlt]
    rfl
  · rw [sentBy_self, underLayer, if_neg (Nat.lt_irrefl i)]
    rfl

theorem length_underLayer {message : List UInt8} (hlen : message.length = 260) (i : Nat) :
    (underLayer P enc k message i).length = onionErrorLength := by
  unfold underLayer
  split
  · exact length_sentBy P enc hlen (i + 1)
  · rw [List.length_append, List.Vector.toList_length, hlen]
    rfl

end Layers

/-! ### Another keystream -/

section Stream
variable (P : Primitives) (key : Bytes 32) (stream : Nat → UInt8)

theorem onionEncrypt_withStream {secret : Hash256} (h : generateKey P .ammag secret ≠ key)
    (data : List UInt8) : onionEncrypt (P.withStream key stream) secret data = onionEncrypt P secret data := by
  have hcipher : (P.withStream key stream).chacha20 (generateKey P .ammag secret) =
      P.chacha20 (generateKey P .ammag secret) := Function.update_of_ne h ..
  rw [onionEncrypt_eq, onionEncrypt_eq]
  show pad data ((List.range data.length).map fun i => 0 ^^^ (P.withStream key stream).chacha20
    (generateKey P .ammag secret) i) = _
  rw [hcipher]
  rfl

/-- What is sent without the changed layer stays as it is. -/
theorem sentBy_withStream (enc : Nat → OnionErrorEncrypter) {k : Nat} (message : List UInt8) {i : Nat}
    (hi : i ≤ k) (hkeys : ∀ n, i ≤ n → n ≤ k → (enc n).ammagKey P ≠ key) :
    sentBy (P.withStream key stream) enc k message i = sentBy P enc k message i := by
  obtain ⟨d, hd⟩ : ∃ d, k = i + d := ⟨k - i, by omega⟩
  induction d generalizing i with
  | zero =>
    obtain rfl : k = i := hd
    rw [sentBy_self, sentBy_self]
    exact onionEncrypt_withStream P key stream (hkeys k (Nat.le_refl k) (Nat.le_refl k)) _
  | succ d ih =>
    have hlt : i < k := by omega
    rw [sentBy_of_lt _ enc message hlt, sentBy_of_lt P enc message hlt,
      ih hlt (fun n hn => hkeys n (by omega)) (by omega)]
    exact onionEncrypt_withStream P key stream (hkeys i (Nat.le_refl i) hi) _

theorem underLayer_withStream (enc : Nat → OnionErrorEncrypter) {k : Nat} (message : List UInt8) {i : Nat}
    (hkeys : ∀ n, i < n → n ≤ k → (enc n).ammagKey P ≠ key) :
    underLayer (P.withStream key stream) enc k message i = underLayer P enc k message i := by
  unfold underLayer
  split
  · rename_i hlt
    exact sentBy_withStream P key stream enc message hlt hkeys
  · rfl

/-- A layer whose keystream may be anything turns what it lies on into anything. -/
theorem onionEncrypt_covering (secret : Hash256) {data target : List UInt8}
    (h : data.length = target.length) :
    onionEncrypt (P.withStream (generateKey P .ammag secret) fun i => (pad data target).getD i 0)
      secret data = target := by
  have hlen : (pad data target).length = data.length := by
    rw [length_pad, h, Nat.min_self]
  have hstream : generateCipherStream
      (P.withStream (generateKey P .ammag secret) fun i => (pad data target).getD i 0)
      (generateKey P .ammag secret) data.length = pad data target := by
    apply List.ext_getElem
    · rw [length_generateCipherStream, hlen]
    · intro i hi hi'
      simp only [generateCipherStream, Primitives.withStream, Function.update_self, List.getElem_map,
        List.getElem_range, UInt8.zero_xor]
      rw [List.getD_eq_getElem?_getD, List.getElem?_eq_getElem hi', Option.getD_some]
  rw [onionEncrypt_eq]
  show pad data (generateCipherStream _ (generateKey P .ammag secret) data.length) = target
  rw [hstream, pad_pad_left data target (Nat.le_of_eq h.symm)]

end Stream

/-- **Where a failure comes from, and what it says, is the sender's secret.** Whatever
failure hops `0, …, j` have passed on, any other failure raised by any hop behind them
could have looked the same to all of them and to anyone between them and the sender, for
some keystream of hop `j + 1`, whose key is no other hop's. -/
theorem origin_hidden (P : Primitives) (enc : Nat → OnionErrorEncrypter) {j k k' : Nat} (hk : j < k)
    (hk' : j < k') (message message' : List UInt8) (hlen : message.length = 260)
    (hlen' : message'.length = 260)
    (hkeys : ∀ i, i ≤ k' → i ≠ j + 1 → (enc i).ammagKey P ≠ (enc (j + 1)).ammagKey P) :
    ∃ stream, ∀ i, i ≤ j + 1 →
      sentBy (P.withStream ((enc (j + 1)).ammagKey P) stream) enc k' message' i =
        sentBy P enc k message i := by
  let stream : Nat → UInt8 := fun i =>
    (pad (underLayer P enc k' message' (j + 1)) (sentBy P enc k message (j + 1))).getD i 0
  have hbehind : underLayer (P.withStream ((enc (j + 1)).ammagKey P) stream) enc k' message' (j + 1) =
      underLayer P enc k' message' (j + 1) :=
    underLayer_withStream P _ stream enc message' fun n hn hle => hkeys n hle (by omega)
  refine ⟨stream, fun i hi => ?_⟩
  obtain ⟨d, hd⟩ : ∃ d, j + 1 = i + d := ⟨j + 1 - i, by omega⟩
  induction d generalizing i with
  | zero =>
    obtain rfl : j + 1 = i := hd
    rw [sentBy_eq _ enc message' hk', hbehind]
    refine onionEncrypt_covering P (enc (j + 1)).sharedSecret ?_
    rw [length_underLayer P enc hlen', length_sentBy P enc hlen]
  | succ d ih =>
    rw [sentBy_of_lt _ enc message' (show i < k' by omega), sentBy_of_lt P enc message (show i < k by omega),
      ih (i + 1) (by omega) (by omega)]
    exact onionEncrypt_withStream P _ _ (hkeys i (by omega) (by omega)) _

/-- Hops with different secrets. -/
def stampedEncrypter (i : Nat) : OnionErrorEncrypter :=
  ⟨⟨List.replicate 32 (UInt8.ofNat i), List.length_replicate⟩⟩

/-- The first hop cannot tell a failure of the second from another of the fourth. -/
theorem stamped_hidden : ∃ stream, ∀ i, i ≤ 1 →
    sentBy (openPrimitives.withStream ((stampedEncrypter 1).ammagKey openPrimitives) stream)
        stampedEncrypter 3 (List.replicate 260 9) i =
      sentBy openPrimitives stampedEncrypter 1 (List.replicate 260 7) i :=
  origin_hidden openPrimitives stampedEncrypter (j := 0) (by decide) (by decide) _ _
    List.length_replicate List.length_replicate (by decide +kernel)

end LightningOnion
