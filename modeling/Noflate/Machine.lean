import Noflate.Decode
import Noflate.Rfc1951
import Noflate.General.Resumable

/-!
# The decoder as a machine on bits

The decoder without its buffers: a machine whose state is the decoder's state and the whole output so far, and whose input is
the list of bits still to be read. One move reads one item: a block header, the length of a stored block or one of its bytes,
the counts of a dynamic block, one length of the code-length code, one element of the code lengths, one literal, match or
end-of-block symbol. The bit reader, its residual bits, the pieces the input comes in, the cap on the output and the window are
all absent; `Lemmas.Steps` shows that the decoder makes the moves of this machine.

The machine reads codes as the decoder does, out of its tables and with its look-ahead, since that decides when it wants for
input.
-/

namespace Noflate

open BitString Resumable

/-- What parsing the front of a list of bits gives: not enough bits, bits that cannot be, or a value and the bits behind it. -/
inductive Parse (α : Type) where
  | more
  | fail
  | got (a : α) (rest : List Bool)

namespace Parse

/-- Parse on with the value and the bits behind it. -/
def andThen {α β : Type} (x : Parse α) (f : α → List Bool → Parse β) : Parse β :=
  match x with
  | .more => .more
  | .fail => .fail
  | .got a rest => f a rest

@[simp] theorem andThen_more {α β : Type} (f : α → List Bool → Parse β) : andThen .more f = .more := rfl

@[simp] theorem andThen_fail {α β : Type} (f : α → List Bool → Parse β) : andThen .fail f = .fail := rfl

@[simp] theorem andThen_got {α β : Type} (a : α) (rest : List Bool) (f : α → List Bool → Parse β) :
    andThen (.got a rest) f = f a rest := rfl

/-- A parse of two parts that gives a value. -/
theorem andThen_eq_got {α β : Type} {x : Parse α} {f : α → List Bool → Parse β} {b : β} {rest : List Bool}
    (h : x.andThen f = .got b rest) : ∃ a bits, x = .got a bits ∧ f a bits = .got b rest := by
  cases x with
  | more => cases h
  | fail => cases h
  | got a bits => exact ⟨a, bits, rfl, h⟩

/-- A move of a machine from a parse. -/
def toNext {α σ : Type} (x : Parse α) (f : α → List Bool → Next σ Bool) : Next σ Bool :=
  match x with
  | .more => .more
  | .fail => .fail
  | .got a rest => f a rest

@[simp] theorem toNext_more {α σ : Type} (f : α → List Bool → Next σ Bool) : toNext .more f = .more := rfl

@[simp] theorem toNext_fail {α σ : Type} (f : α → List Bool → Next σ Bool) : toNext .fail f = .fail := rfl

@[simp] theorem toNext_got {α σ : Type} (a : α) (rest : List Bool) (f : α → List Bool → Next σ Bool) :
    toNext (.got a rest) f = f a rest := rfl

end Parse

/-- A field of `n` bits. -/
def parseField (n : Nat) (bits : List Bool) : Parse Nat :=
  if bits.length < n then .more else .got (toNat (bits.take n)) (bits.drop n)

/-- The loop of `HuffmanDecoder.parse`, as `HuffmanDecoder.decodeLoop`. -/
def HuffmanDecoder.parseLoop (dec : HuffmanDecoder) : Nat → Nat → List Bool → Parse Nat
  | 0, _, _ => .fail
  | fuel + 1, peekBits, bits =>
    if bits.length < peekBits then .more
    else
      match dec.table[toNat (bits.take peekBits)]? with
      | none => .fail
      | some value =>
        let width := value &&& 31
        if width ≤ peekBits ∧ value ≠ emptySlot then .got (value >>> 5) (bits.drop width)
        else if dec.maxBits < width ∨ value = emptySlot then .fail
        else dec.parseLoop fuel width bits

/-- Parse one symbol with the look-ahead of the decoder. -/
def HuffmanDecoder.parse (dec : HuffmanDecoder) (bits : List Bool) : Parse Nat := dec.parseLoop 33 dec.safelyPeekBits bits

/-- Parse the distance of a match: its symbol and extra bits. -/
def parseDistance (distance : HuffmanDecoder) (bits : List Bool) : Parse Nat :=
  (distance.parse bits).andThen fun sym bits =>
  match distanceTable[sym]? with
  | none => .fail
  | some (base, extraBits) => (parseField extraBits bits).andThen fun extra bits => .got (base + extra) bits

/-- Parse one element of a compressed block. -/
def parseToken (literal distance : HuffmanDecoder) (bits : List Bool) : Parse Rfc1951.Token :=
  if bits.length < literal.safelyPeekBits then .more
  else
    (literal.parse bits).andThen fun sym bits =>
    if sym ≤ 255 then .got (.literal (UInt8.ofNat sym)) bits
    else if sym = endOfBlock then .got .endOfBlock bits
    else
      match lengthTable[sym - 257]? with
      | none => .fail
      | some (base, extraBits) =>
        (parseField extraBits bits).andThen fun extra bits =>
        (parseDistance distance bits).andThen fun dist bits => .got (.copy (base + extra) dist) bits

/-- Parse one element of the code lengths: the code lengths it adds behind those there are. -/
def parseCodeLength (bitwidthDecoder : HuffmanDecoder) (lengths : List Nat) (bits : List Bool) : Parse (List Nat) :=
  (bitwidthDecoder.parse bits).andThen fun code bits =>
  if code ≤ 15 then .got [code] bits
  else if code = 16 then
    (parseField 2 bits).andThen fun v bits =>
    match lengths.getLast? with
    | none => .fail
    | some last => .got (List.replicate (v + 3) last) bits
  else if code = 17 then (parseField 3 bits).andThen fun v bits => .got (List.replicate (v + 3) 0) bits
  else if code = 18 then (parseField 7 bits).andThen fun v bits => .got (List.replicate (v + 11) 0) bits
  else .fail

/-- The header of a stored block: its length, once the bits up to the byte boundary are gone. -/
def parseStoredHeader (bits : List Bool) : Parse Nat :=
  if bits.length < bits.length % 8 + 32 then .more
  else
    (parseField 16 (bits.drop (bits.length % 8))).andThen fun len bits =>
    (parseField 16 bits).andThen fun nlen bits => if 0xFFFF - len ≠ nlen then .fail else .got len bits

/-- A result of the program as a move: an error is a failure. -/
def Exec.toNext {α σ : Type} (x : Exec α) (f : α → Next σ Bool) : Next σ Bool :=
  match x with
  | .ok a => f a
  | _ => .fail

@[simp] theorem Exec.toNext_ok {α σ : Type} (a : α) (f : α → Next σ Bool) : (Exec.ok a).toNext f = f a := rfl

@[simp] theorem Exec.toNext_err {α σ : Type} (e : Error) (f : α → Next σ Bool) : (Exec.err e).toNext f = .fail := rfl

/-- The state of the machine: the decoder's state and the whole output. -/
abbrev ItemState : Type := DecodeState × List UInt8

/-- One move: read one item. -/
def itemStep : ItemState → List Bool → Next ItemState Bool
  | (.blockHeader, output), bits =>
    if bits.length < 3 then .more
    else
      let isFinal := toNat (bits.take 1) != 0
      let rest := bits.drop 3
      match toNat ((bits.drop 1).take 2) with
      | 0 => .next (.storedAlignAndLen isFinal, output) rest
      | 1 =>
        (HuffmanDecoder.fromCodeLengths fixedLiteralCodeLengths none (some endOfBlock)).toNext fun literal =>
        (HuffmanDecoder.fromCodeLengths fixedDistanceCodeLengths (some 7) none).toNext fun distance =>
        .next (.symbolLoop isFinal literal distance, output) rest
      | 2 => .next (.dynamicHeader isFinal, output) rest
      | _ => .fail
  | (.storedAlignAndLen isFinal, output), bits =>
    (parseStoredHeader bits).toNext fun len rest => .next (.storedBody len isFinal, output) rest
  | (.storedBody remaining isFinal, output), bits =>
    if remaining = 0 then .next (if isFinal then .finished else .blockHeader, output) bits
    else
      (parseField 8 bits).toNext fun byte rest =>
      .next (.storedBody (remaining - 1) isFinal, output ++ [UInt8.ofNat byte]) rest
  | (.dynamicHeader isFinal, output), bits =>
    if bits.length < 14 then .more
    else
      (parseField 5 bits).toNext fun hlit bits =>
      (parseField 5 bits).toNext fun hdist bits =>
      (parseField 4 bits).toNext fun hclen bits =>
      if distanceTable.length < hdist + 1 then .fail
      else .next (.dynamicBitwidthTable isFinal (hlit + 257) (hdist + 1) (hclen + 4) 0 (List.replicate 19 0), output) bits
  | (.dynamicBitwidthTable isFinal hlit hdist hclen orderIdx codeLengths, output), bits =>
    if orderIdx < hclen then
      (parseField 3 bits).toNext fun width bits =>
      (Exec.index bitwidthCodeOrder orderIdx).toNext fun slot =>
      .next (.dynamicBitwidthTable isFinal hlit hdist hclen (orderIdx + 1) (codeLengths.set slot width), output) bits
    else
      (HuffmanDecoder.fromCodeLengths codeLengths (some 1) none).toNext fun bitwidthDecoder =>
      .next (.dynamicCodeLengths isFinal hlit hdist bitwidthDecoder [] (hlit + hdist), output) bits
  | (.dynamicCodeLengths isFinal hlit hdist bitwidthDecoder lengths targetLen, output), bits =>
    if lengths.length < targetLen then
      (parseCodeLength bitwidthDecoder lengths bits).toNext fun added bits =>
      if targetLen < (lengths ++ added).length then .fail
      else .next (.dynamicCodeLengths isFinal hlit hdist bitwidthDecoder (lengths ++ added) targetLen, output) bits
    else
      (HuffmanDecoder.fromCodeLengths (lengths.take hlit) none (some endOfBlock)).toNext fun literal =>
      (HuffmanDecoder.fromCodeLengths ((lengths.drop hlit).take hdist) (some literal.safelyPeekBits) none).toNext fun distance =>
      .next (.symbolLoop isFinal literal distance, output) bits
  | (.symbolLoop isFinal literal distance, output), bits =>
    (parseToken literal distance bits).toNext fun token rest =>
    match token with
    | .literal byte => .next (.symbolLoop isFinal literal distance, output ++ [byte]) rest
    | .endOfBlock => .next (if isFinal then .finished else .blockHeader, output) rest
    | .copy length dist =>
      match Rfc1951.copyBytes dist length output with
      | none => .fail
      | some output => .next (.symbolLoop isFinal literal distance, output) rest
  | (.finished, _), _ => .halt
  | (.transient, _), _ => .fail

/-- The decoder as a machine on bits. -/
def itemMachine : Machine ItemState Bool := ⟨itemStep⟩

end Noflate
