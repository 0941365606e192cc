import LightningOnion.Lib.Hex
import LightningOnion.Route.Delivery

/-! The command line utility.

`generate` prints the packet for the keys it is given, and `decode` is to process a packet
with a private key and print the next one. What the one prints the other reads back, and
for the first hop's key it passes every check (`generate_decode`); but the replay log of
`decode` is never started, so nothing is ever printed (`decode_prints_nothing`).

Arguments, input and output are bytes. What goes to the standard error is left out but
for the message a run ends with. -/
namespace LightningOnion.Cmd
open Lib

/-- How a run ends: with what is on the standard output, or with a message and without
output. -/
inductive Outcome where
  | prints (stdout : List UInt8)
  | fatal (message : List UInt8)
  | panics
  deriving DecidableEq

section
variable (P : Primitives)

/-- `bytes.Repeat([]byte{'B'}, 32)`. -/
def assocData : List UInt8 := List.replicate 32 0x42

theorem sessionScalar_lt : beNat (List.replicate 32 0x41) < 2 ^ 256 := by decide

/-- The private key of 32 times `'A'`. -/
def sessionKey : PrivateKey P := .ofScalar P (beNat (List.replicate 32 0x41)) sessionScalar_lt

/-- The instructions hop `i` gets. -/
def hopDataFor (i : Nat) : HopData where
  realm := ⟨[0], rfl⟩
  nextAddress := ⟨List.replicate 8 (UInt8.ofNat i), List.length_replicate⟩
  forwardAmount := UInt64.ofNat i
  outgoingCltv := UInt32.ofNat i
  extraBytes := zeroBytes _
  hmac := zeroBytes _

/-- Fills the path from slot `i` on; a slot past the last one panics. -/
def fillPath : (i : Nat) → (hexKeys : List (List UInt8)) → PaymentPath → Except Outcome PaymentPath
  | _, [], path => .ok path
  | i, hexKey :: rest, path =>
    let (binKey, err) := hexDecode hexKey
    if err.isSome ∨ binKey.length ≠ 33 then
      -- A key of the wrong length comes with no error, and `%s` is given nil for it.
      .error (.fatal (hexKey ++ ascii " is not a valid hex pubkey " ++
        err.elim (ascii "%!s(<nil>)") HexError.text))
    else
      match P.parsePubKey binKey with
      | none => .error .panics
      | some pubkey =>
        if h : i < numMaxHops then
          fillPath (i + 1) rest (Function.update path ⟨i, h⟩ ⟨pubkey, hopDataFor i⟩)
        else .error .panics

def generate (hexKeys : List (List UInt8)) : Outcome :=
  match fillPath P 0 hexKeys fun _ => .unset with
  | .error out => out
  | .ok path =>
    match newOnionPacket P path (sessionKey P) assocData with
    | none => .panics
    | some (_, msg) => .prints (hexEncode (msg.encode P) ++ ascii "\n")

/-- `btcec.PrivKeyFromBytes` of 32 bytes. -/
def privKeyFromBytes (binKey : List UInt8) (h : binKey.length = 32) : PrivateKey P :=
  .ofScalar P (beNat binKey) (by
    have := beNat_lt binKey
    rw [h] at this
    exact this)

/-- Processes a packet with a replay log of its own, and prints the next one. -/
def process (privkey : PrivateKey P) (packet : OnionPacket) : Outcome :=
  match (Router.processOnionPacket ⟨privkey⟩ .new packet assocData 10).2 with
  | .error err => .fatal (ascii ("Failed to decode message: " ++ err.text))
  | .ok p =>
    match p.nextPacket with
    | none => .panics
    | some next => .prints (hexEncode (next.encode P) ++ ascii "\n")

def decode (args : List (List UInt8)) (stdin : List UInt8) : Outcome :=
  match args with
  | [] => .panics
  | hexKey :: _ =>
    let key := hexDecode hexKey
    if h : key.1.length ≠ 32 ∨ key.2.isSome then .fatal (ascii "Argument not a valid hex private key")
    else
      match hexDecode (trimSpace stdin) with
      | (_, some err) => .fatal (ascii "Error decoding message: " ++ err.text)
      | (binMsg, none) =>
        let privkey := privKeyFromBytes P key.1 (Decidable.not_not.mp fun hne => h (.inl hne))
        match OnionPacket.decode P (.ofBytes binMsg) with
        | .error err => .fatal (ascii ("Error parsing message: " ++ err.text))
        | .ok (packet, _) => process P privkey packet

/-- The utility, run with these arguments, the first of which is its own name. -/
def main (args : List (List UInt8)) (stdin : List UInt8) : Outcome :=
  match args with
  | [] => .panics
  | [name] => .prints (ascii "Usage: " ++ name ++ ascii " (generate|decode) <private-keys>\n")
  | _ :: command :: rest =>
    if command = ascii "generate" then generate P rest
    else if command = ascii "decode" then decode P rest stdin
    else .prints []

end

/-! ### Decoding never gets through -/

section Decode
variable (P : Primitives)

/-- The log is not started: a packet that passes the examination is refused as well. -/
theorem process_eq (privkey : PrivateKey P) (packet : OnionPacket) : process P privkey packet =
    match Router.examine ⟨privkey⟩ packet assocData with
    | .error err => .fatal (ascii ("Failed to decode message: " ++ err.text))
    | .ok _ => .fatal (ascii ("Failed to decode message: " ++ Error.errReplayLogNotStarted.text)) := by
  unfold process
  cases he : Router.examine ⟨privkey⟩ packet assocData with
  | error err => rw [Router.processOnionPacket_error he]
  | ok found =>
    rw [Router.processOnionPacket_ok he,
      MemoryReplayLog.put_not_started _ MemoryReplayLog.not_started_new]

theorem process_fatal (privkey : PrivateKey P) (packet : OnionPacket) :
    ∃ err : Error, process P privkey packet =
        .fatal (ascii ("Failed to decode message: " ++ err.text)) ∧
      (err = .errInvalidOnionKey ∨ err = .errInvalidOnionHMAC ∨ err = .errReplayLogNotStarted) := by
  rw [process_eq]
  cases he : Router.examine ⟨privkey⟩ packet assocData with
  | error err =>
    refine ⟨err, rfl, ?_⟩
    rcases Router.examine_error he with h | h
    · exact .inl h
    · exact .inr (.inl h)
  | ok found => exact ⟨_, rfl, .inr (.inr rfl)⟩

theorem decode_of_key {hexKey : List UInt8} (hlen : (hexDecode hexKey).1.length = 32)
    (herr : (hexDecode hexKey).2 = none) (rest : List (List UInt8)) (stdin : List UInt8) :
    decode P (hexKey :: rest) stdin =
      match hexDecode (trimSpace stdin) with
      | (_, some err) => .fatal (ascii "Error decoding message: " ++ err.text)
      | (binMsg, none) =>
        match OnionPacket.decode P (.ofBytes binMsg) with
        | .error err => .fatal (ascii ("Error parsing message: " ++ err.text))
        | .ok (packet, _) => process P (privKeyFromBytes P _ hlen) packet := by
  have hok : ¬((hexDecode hexKey).1.length ≠ 32 ∨ (hexDecode hexKey).2.isSome) := by
    rw [herr, hlen]
    decide
  rw [decode, dif_neg hok]

theorem decode_of_not_key {hexKey : List UInt8}
    (h : (hexDecode hexKey).1.length ≠ 32 ∨ (hexDecode hexKey).2 ≠ none) (rest : List (List UInt8))
    (stdin : List UInt8) :
    decode P (hexKey :: rest) stdin = .fatal (ascii "Argument not a valid hex private key") := by
  rw [← Option.isSome_iff_ne_none] at h
  rw [decode, dif_pos h]

theorem decode_hexEncode {binKey : List UInt8} (hkey : binKey.length = 32) (rest : List (List UInt8))
    {stdin binMsg : List UInt8} (hmsg : hexDecode (trimSpace stdin) = (binMsg, none)) :
    decode P (hexEncode binKey :: rest) stdin =
      match OnionPacket.decode P (.ofBytes binMsg) with
      | .error err => .fatal (ascii ("Error parsing message: " ++ err.text))
      | .ok (packet, _) => process P (privKeyFromBytes P binKey hkey) packet := by
  simp [decode, hexDecode_hexEncode, hmsg, hkey]

theorem main_decode (name : List UInt8) (args : List (List UInt8)) (stdin : List UInt8) :
    main P (name :: ascii "decode" :: args) stdin = decode P args stdin := by
  rw [main, if_neg (by decide), if_pos rfl]

/-- **`decode` prints nothing.** Without a key it panics, and with one it ends with a
message: that it is no key, that the input is not hexadecimal or no packet, or, for every
packet, about its key, its MAC or the replay log. -/
theorem decode_prints_nothing (name stdin : List UInt8) :
    (∀ args stdout, main P (name :: ascii "decode" :: args) stdin ≠ .prints stdout) ∧
    main P [name, ascii "decode"] stdin = .panics ∧
    ∀ hexKey rest,
      ((hexDecode hexKey).1.length ≠ 32 ∨ (hexDecode hexKey).2 ≠ none →
        main P (name :: ascii "decode" :: hexKey :: rest) stdin =
          .fatal (ascii "Argument not a valid hex private key")) ∧
      ((hexDecode hexKey).1.length = 32 → (hexDecode hexKey).2 = none →
        (∀ binMsg err, hexDecode (trimSpace stdin) = (binMsg, some err) →
          main P (name :: ascii "decode" :: hexKey :: rest) stdin =
            .fatal (ascii "Error decoding message: " ++ err.text)) ∧
        (∀ binMsg err, hexDecode (trimSpace stdin) = (binMsg, none) →
          OnionPacket.decode P (.ofBytes binMsg) = .error err →
          main P (name :: ascii "decode" :: hexKey :: rest) stdin =
            .fatal (ascii ("Error parsing message: " ++ err.text))) ∧
        ∀ binMsg packet r, hexDecode (trimSpace stdin) = (binMsg, none) →
          OnionPacket.decode P (.ofBytes binMsg) = .ok (packet, r) →
          ∃ err : Error, main P (name :: ascii "decode" :: hexKey :: rest) stdin =
              .fatal (ascii ("Failed to decode message: " ++ err.text)) ∧
            (err = .errInvalidOnionKey ∨ err = .errInvalidOnionHMAC ∨ err = .errReplayLogNotStarted)) := by
  simp only [main_decode]
  refine ⟨fun args stdout => ?_, rfl, fun hexKey rest => ⟨fun h => decode_of_not_key P h rest stdin,
    fun hlen herr => ?_⟩⟩
  · cases args with
    | nil => exact Outcome.noConfusion
    | cons hexKey rest =>
      by_cases hkey : (hexDecode hexKey).1.length = 32 ∧ (hexDecode hexKey).2 = none
      · rw [decode_of_key P hkey.1 hkey.2]
        split
        · exact Outcome.noConfusion
        · split
          · exact Outcome.noConfusion
          · rename_i packet _ _
            obtain ⟨err, hprocess, -⟩ := process_fatal P (privKeyFromBytes P _ hkey.1) packet
            rw [hprocess]
            exact Outcome.noConfusion
      · rw [decode_of_not_key P (not_and_or.mp hkey)]
        exact Outcome.noConfusion
  · rw [decode_of_key P hlen herr]
    refine ⟨fun binMsg err hmsg => ?_, fun binMsg err hmsg hpacket => ?_,
      fun binMsg packet r hmsg hpacket => ?_⟩
    · rw [hmsg]
    · rw [hmsg]
      simp only [hpacket]
    · rw [hmsg]
      simp only [hpacket]
      exact process_fatal P _ packet

/-- A key of 32 bytes, and a line that is not hexadecimal. -/
theorem decode_garbled_line :
    main (samplePrimitives fun _ _ => sampleHash)
        [ascii "onion", ascii "decode", hexEncode (List.replicate 32 1)] (ascii " 00g0\n") =
      .fatal (ascii "Error decoding message: encoding/hex: invalid byte: U+0067 'g'") := by
  obtain ⟨-, -, hkey⟩ := decode_prints_nothing (samplePrimitives fun _ _ => sampleHash)
    (ascii "onion") (ascii " 00g0\n")
  obtain ⟨-, hvalid⟩ := hkey (hexEncode (List.replicate 32 1)) []
  have hline : hexDecode (trimSpace (ascii " 00g0\n")) = ([0], some (.invalidByte 0x67)) := by decide
  exact ((hvalid (by rw [hexDecode_hexEncode]; rfl) (by rw [hexDecode_hexEncode])).1 _ _ hline).trans
    (by decide)

end Decode

/-! ### Generating, and decoding what was generated -/

/-- The path to the first `n` of the nodes, as the utility fills it. -/
def pathTo {P : Primitives} (node : Nat → PrivateKey P) (n : Nat) : PaymentPath :=
  fun j => if j.val < n then ⟨(node j).pubKey, hopDataFor j⟩ else .unset

/-- The arguments for them. -/
def hexKeys {P : Primitives} (node : Nat → PrivateKey P) (i n : Nat) : List (List UInt8) :=
  (List.range' i n).map fun j => hexEncode (P.serializeCompressed (node j).pubKey)

section Generate
variable {P : Primitives} {E : Type} [AddCommGroup E] (C : CurveModel P E) (node : Nat → PrivateKey P)

theorem pathTo_succ {i : Nat} (hi : i < numMaxHops) :
    Function.update (pathTo node i) ⟨i, hi⟩ ⟨(node i).pubKey, hopDataFor i⟩ = pathTo node (i + 1) := by
  funext j
  by_cases hj : j = ⟨i, hi⟩
  · subst hj
    rw [Function.update_self, pathTo, if_pos (Nat.lt_succ_self i)]
  · have hne : j.val ≠ i := fun h => hj (Fin.ext h)
    rw [Function.update_of_ne hj, pathTo, pathTo]
    by_cases hlt : j.val < i
    · rw [if_pos hlt, if_pos (by omega)]
    · rw [if_neg hlt, if_neg (by omega)]

include C

/-- The loop over the keys fills the slots one by one. -/
theorem fillPath_hexKeys {i n : Nat} (hmax : i + n ≤ numMaxHops)
    (hnode : ∀ j, i ≤ j → j < i + n → (node j).d % P.order ≠ 0) :
    fillPath P i (hexKeys node i n) (pathTo node i) = .ok (pathTo node (i + n)) := by
  induction n generalizing i with
  | zero => rfl
  | succ n ih =>
    have hi : i < numMaxHops := by omega
    obtain ⟨hlen, hparse⟩ := parse_serialize_pubKey C (node i) (hnode i (Nat.le_refl i) (by omega))
    have hrest := ih (i := i + 1) (by omega) fun j hj hlt => hnode j (by omega) (by omega)
    have hcons : hexKeys node i (n + 1) =
        hexEncode (P.serializeCompressed (node i).pubKey) :: hexKeys node (i + 1) n := by
      rw [hexKeys, List.range'_succ, List.map_cons, hexKeys]
    rw [hcons, fillPath, hexDecode_hexEncode]
    simp only [hlen, hparse, Option.isSome_none, Bool.false_eq_true, ne_eq, not_true_eq_false,
      or_self, if_false, dif_pos hi, pathTo_succ node hi]
    rw [hrest, Nat.add_right_comm, Nat.add_assoc]

variable {n : Nat} (hpos : 0 < n) (hmax : n ≤ numMaxHops)
  (hset : ∀ i, i < n → (node i).pubKey.x.isSome ∧ (node i).pubKey.y.isSome)

omit C in
theorem hop_pathTo {i : Nat} (hi : i < numMaxHops) : (pathTo node n).hop i =
    if i < n then ⟨(node i).pubKey, hopDataFor i⟩ else .unset :=
  PaymentPath.hop_of_lt _ hi

omit C in
include hmax hset in
theorem trueRouteLength_pathTo : (pathTo node n).trueRouteLength = n := by
  refine PaymentPath.trueRouteLength_eq _ hmax (fun i hi => ?_) fun hlt => ?_
  · obtain ⟨hx, hy⟩ := hset i hi
    rw [hop_pathTo node (by omega), if_pos hi, OnionHop.isEmpty]
    simp [hx, hy]
  · rw [hop_pathTo node hlt, if_neg (Nat.lt_irrefl n)]
    rfl

/-- The route the utility builds a packet for. -/
def routeTo : Route P where
  path := pathTo node n
  node := node
  sessionKey := sessionKey P
  assocData := assocData
  pos := by rwa [trueRouteLength_pathTo node hmax hset]
  nodePub := fun i hi => by
    rw [trueRouteLength_pathTo node hmax hset] at hi
    rw [hop_pathTo node (by omega), if_pos hi]

omit C in
theorem privKeyFromBytes_beBytes (k : PrivateKey P) :
    privKeyFromBytes P (beBytes 32 k.d) (length_beBytes 32 k.d) = k := by
  obtain ⟨d, pubKey, hd, rfl⟩ := k
  have hscalar : beNat (beBytes 32 d) = d := beNat_beBytes_of_lt (Nat.lt_of_lt_of_eq hd (by decide))
  simp only [privKeyFromBytes, PrivateKey.ofScalar, hscalar]

theorem generate_hexKeys (hnode : ∀ i, i < n → (node i).d % P.order ≠ 0) :
    generate P (hexKeys node 0 n) =
      .prints (hexEncode (((routeTo node hpos hmax hset).packetAt 0).encode P) ++ ascii "\n") := by
  have hfill := fillPath_hexKeys C node (i := 0) (n := n) (by omega) fun j _ hj => hnode j (by omega)
  have hempty : pathTo node 0 = fun _ => OnionHop.unset := rfl
  have hnew := (routeTo node hpos hmax hset).newOnionPacket_route C
  rw [hempty, Nat.zero_add] at hfill
  rw [generate, hfill]
  simp only [show newOnionPacket P (pathTo node n) (sessionKey P) assocData = _ from hnew]

include hpos hmax hset in
/-- **What `generate` prints, the first hop can process, but not with `decode`.** The line
is read back as a packet that a router with the first node's key and a started replay log
accepts. The log of `decode` is not started. -/
theorem generate_decode (hnode : ∀ i, i < n → (node i).d % P.order ≠ 0)
    (hx : (sessionKey P).d % P.order ≠ 0) (name : List UInt8) :
    ∃ line packet r processed,
      main P (name :: ascii "generate" :: hexKeys node 0 n) [] = .prints line ∧
      OnionPacket.decode P (.ofBytes (hexDecode (trimSpace line)).1) = .ok (packet, r) ∧
      (Router.processOnionPacket ⟨node 0⟩ (.started ∅ ∅) packet assocData 10).2 = .ok processed ∧
      main P [name, ascii "decode", hexEncode (beBytes 32 (node 0).d)] line =
        .fatal (ascii ("Failed to decode message: " ++ Error.errReplayLogNotStarted.text)) := by
  let R : Route P := routeTo node hpos hmax hset
  have hblind : BlindingsNonzero R.sessionKey R.node 0 := fun j hj => absurd hj (Nat.not_lt_zero j)
  have hline : hexDecode (trimSpace (hexEncode ((R.packetAt 0).encode P) ++ ascii "\n")) =
      ((R.packetAt 0).encode P, none) := by
    rw [trimSpace_hexEncode, hexDecode_hexEncode]
  obtain ⟨cuts, hdec⟩ := R.decode_packetAt C hx hblind []
  obtain ⟨processed, hfound⟩ := R.examine_packetAt_ok C hx R.pos hblind
  have hexamine : Router.examine ⟨node 0⟩ (R.packetAt 0) assocData =
      .ok (hashSharedSecret P (R.secret 0), processed) := hfound
  refine ⟨_, R.packetAt 0, _, processed, ?_, by rw [hline]; exact hdec, ?_, ?_⟩
  · rw [main, if_pos rfl]
    exact generate_hexKeys C node hpos hmax hset hnode
  · rw [Router.processOnionPacket_fresh _ _ hexamine _ Finmap.notMem_empty]
  · have hdec' : OnionPacket.decode P (.ofBytes ((R.packetAt 0).encode P)) = _ := hdec
    rw [main_decode, decode_hexEncode P (length_beBytes 32 _) [] hline, hdec']
    simp only [privKeyFromBytes_beBytes, process_eq, hexamine]

end Generate

/-- Residues modulo 7, in which the utility's session key is not zero. -/
def sevenPrimitives : Primitives := transparent 7 (fun _ => sampleHash) (fun _ _ => sampleHash) fun _ _ => 0

def sevenNode (_ : Nat) : PrivateKey sevenPrimitives := .ofScalar _ 1 one_lt_scalars

/-- Two hops to the node with scalar 1. -/
theorem sevenNode_piped : ∃ line packet r processed,
    main sevenPrimitives (ascii "onion" :: ascii "generate" :: hexKeys sevenNode 0 2) [] = .prints line ∧
      OnionPacket.decode sevenPrimitives (.ofBytes (hexDecode (trimSpace line)).1) = .ok (packet, r) ∧
      (Router.processOnionPacket ⟨sevenNode 0⟩ (.started ∅ ∅) packet assocData 10).2 = .ok processed ∧
      main sevenPrimitives [ascii "onion", ascii "decode", hexEncode (beBytes 32 1)] line =
        .fatal (ascii ("Failed to decode message: " ++ Error.errReplayLogNotStarted.text)) :=
  generate_decode (transparentCurve 7 (by decide) (by decide) _ _ _) sevenNode (by decide) (by decide)
    (fun _ _ => ⟨rfl, rfl⟩) (fun _ _ => show 1 % 7 ≠ 0 by decide) (by decide +kernel) _

end LightningOnion.Cmd
