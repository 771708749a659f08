import Noflate.Error
import Noflate.General.Bits

/-!
# Bit I/O

`BitReader` reads bits, the low bit of each byte first, out of a byte slice and a buffer of bits left over from the slice
before; `BitWriter` appends bits to a byte vector and keeps the bits of the last, unfinished byte in a buffer.

The bits a reader still has to give are `BitReader.bits`: the buffered bits and then the bits of the bytes not pulled in yet.
Every operation is described by what it does to that list. The buffers are `u64` and the counts `u8` in the program: the reads
and the writes panic where an assertion fails or a shift or an addition would overflow, and `BitReader.Wf` and `BitWriter.Wf` bound the
count so that none does.
-/

namespace Noflate

open BitString

/-! ## The reader -/

/-- A bit reader over a byte slice. -/
structure BitReader where
  input : List UInt8
  byteIndex : Nat
  bitBuffer : Nat
  bitCount : Nat
  deriving DecidableEq, Repr

/-- A snapshot of a reader's position. -/
structure BitReaderState where
  byteIndex : Nat
  bitBuffer : Nat
  bitCount : Nat
  deriving DecidableEq, Repr

/-- What a reading operation gives: how it ended, and the reader it left. -/
abbrev Reading (α : Type) : Type := Exec α × BitReader

namespace Reading

/-- The `?` operator between two reads: go on with the value and the reader, or end as the first read ended. -/
def andThen {α β : Type} (x : Reading α) (f : α → BitReader → Reading β) : Reading β :=
  match x with
  | (.ok a, r) => f a r
  | (.err e, r) => (.err e, r)
  | (.panic, r) => (.panic, r)
  | (.diverge, r) => (.diverge, r)

@[simp] theorem andThen_ok {α β : Type} (a : α) (r : BitReader) (f : α → BitReader → Reading β) :
    andThen (.ok a, r) f = f a r := rfl

@[simp] theorem andThen_err {α β : Type} (e : Error) (r : BitReader) (f : α → BitReader → Reading β) :
    andThen (.err e, r) f = (.err e, r) := rfl

end Reading

namespace BitReader

/-- A reader seeded with the bits left over from a previous call. -/
def newSeeded (input : List UInt8) (bitBuffer bitCount : Nat) : BitReader :=
  { input, byteIndex := 0, bitBuffer, bitCount }

/-- The bits still available: the unread buffered bits and the bits of the remaining bytes of the slice. -/
def availableBits (r : BitReader) : Nat := r.bitCount + (r.input.length - r.byteIndex) * 8

/-- The loop of `peekBits`: pull bytes in until `n` bits are buffered. A byte pulled in adds eight bits, so at most `n` rounds
are needed. -/
def peekLoop (n : Nat) : Nat → BitReader → Reading Unit
  | 0, r => (.ok (), r)
  | fuel + 1, r =>
    if r.bitCount < n then
      match r.input[r.byteIndex]? with
      | none => (.err eofError, r)
      | some next =>
        if 64 ≤ r.bitCount ∨ 256 ≤ r.bitCount + 8 then (.panic, r)
        else
          peekLoop n fuel
            { r with
              bitBuffer := r.bitBuffer ||| ((next.toNat <<< r.bitCount) % 2 ^ 64)
              bitCount := r.bitCount + 8
              byteIndex := r.byteIndex + 1 }
    else (.ok (), r)

/-- The next `n` bits, without consuming them. -/
def peekBits (n : Nat) (r : BitReader) : Reading Nat :=
  Reading.andThen (peekLoop n n r) fun _ r =>
    if 64 ≤ n then (.panic, r) else (.ok ((r.bitBuffer &&& ((1 <<< n) - 1)) % 2 ^ 16), r)

/-- Consume `n` bits. -/
def skipBits (n : Nat) (r : BitReader) : Reading Unit :=
  Reading.andThen (if r.bitCount < n then peekBits n r else (.ok 0, r)) fun _ r =>
    if 64 ≤ n ∨ r.bitCount < n then (.panic, r)
    else (.ok (), { r with bitBuffer := r.bitBuffer >>> n, bitCount := r.bitCount - n })

/-- Read `n` bits. -/
def readBits (n : Nat) (r : BitReader) : Reading Nat :=
  Reading.andThen (peekBits n r) fun bits r =>
    Reading.andThen (skipBits n r) fun _ r => (.ok bits, r)

/-- Read one bit. -/
def readBit (r : BitReader) : Reading Bool :=
  Reading.andThen (readBits 1 r) fun bit r => (.ok (bit != 0), r)

/-- Discard any buffered fractional byte so the next read is aligned. -/
def alignToByte (r : BitReader) : BitReader :=
  { r with bitBuffer := r.bitBuffer >>> (r.bitCount % 8), bitCount := r.bitCount - r.bitCount % 8 }

/-- Read `len` whole bytes from the slice, after unwinding the buffered whole bytes. The reader is to be aligned. -/
def readBytes (len : Nat) (r : BitReader) : Reading (List UInt8) :=
  let bufferedBytes := r.bitCount / 8
  if r.bitCount % 8 ≠ 0 ∨ r.byteIndex < bufferedBytes then (.panic, r)
  else
    let start := r.byteIndex - bufferedBytes
    let r := { r with bitBuffer := 0, bitCount := 0 }
    if start + len ≤ r.input.length then
      (.ok ((r.input.drop start).take len), { r with byteIndex := start + len })
    else (.err eofError, r)

/-- The position of a reader. -/
def snapshot (r : BitReader) : BitReaderState :=
  { byteIndex := r.byteIndex, bitBuffer := r.bitBuffer, bitCount := r.bitCount }

/-- Go back to a position. -/
def restore (r : BitReader) (state : BitReaderState) : BitReader :=
  { r with byteIndex := state.byteIndex, bitBuffer := state.bitBuffer, bitCount := state.bitCount }

/-- Restoring a snapshot in a reader over the same slice gives the reader the snapshot was taken of. -/
theorem restore_snapshot {r r' : BitReader} (h : r'.input = r.input) : r'.restore r.snapshot = r := by
  cases r
  cases r'
  simp only at h
  subst h
  rfl

/-! ### The bits a reader has to give -/

/-- The bits a reader has still to give: the buffered ones, then those of the bytes not pulled in yet. -/
def bits (r : BitReader) : List Bool := ofNat r.bitCount r.bitBuffer ++ ofBytes (r.input.drop r.byteIndex)

/-- A well-formed reader: the buffer holds no bit beyond its count, the position is in the slice, and the count leaves room for
every read the library makes. -/
structure Wf (r : BitReader) : Prop where
  buffer_lt : r.bitBuffer < 2 ^ r.bitCount
  index_le : r.byteIndex ≤ r.input.length
  count_le : r.bitCount ≤ 31

theorem length_bits (r : BitReader) : r.bits.length = r.availableBits := by
  rw [bits, List.length_append, length_ofNat, length_ofBytes, List.length_drop, availableBits, Nat.mul_comm]

/-- `r'` is `r` after consuming `n` bits: the same slice, the bits that follow, and at most `k` bits buffered. -/
structure Consumed (r r' : BitReader) (n k : Nat) : Prop where
  wf : r'.Wf
  input_eq : r'.input = r.input
  bits_eq : r'.bits = r.bits.drop n
  count_le : r'.bitCount ≤ k

theorem Consumed.mono {r r' : BitReader} {n k k' : Nat} (h : Consumed r r' n k) (hk : k ≤ k') : Consumed r r' n k' :=
  ⟨h.wf, h.input_eq, h.bits_eq, h.count_le.trans hk⟩

/-- Consuming `n` bits and then `m` more is consuming `n + m`. -/
theorem Consumed.trans {r r' r'' : BitReader} {n m k k' : Nat} (h : Consumed r r' n k) (h' : Consumed r' r'' m k') :
    Consumed r r'' (n + m) k' :=
  ⟨h'.wf, h'.input_eq.trans h.input_eq, by rw [h'.bits_eq, h.bits_eq, List.drop_drop], h'.count_le⟩

/-- A reader with bits still in its slice, spelled out at the next byte. -/
theorem bits_eq_of_getElem? {r : BitReader} {next : UInt8} (h : r.input[r.byteIndex]? = some next) :
    r.bits = ofNat r.bitCount r.bitBuffer ++ (ofNat 8 next.toNat ++ ofBytes (r.input.drop (r.byteIndex + 1))) := by
  obtain ⟨hlt, rfl⟩ := List.getElem?_eq_some_iff.mp h
  rw [bits, List.drop_eq_getElem_cons hlt, ofBytes_cons]

/-- Pulling the next byte in keeps a reader well-formed and changes none of the bits it has to give. -/
theorem pull_spec {r : BitReader} {next : UInt8} (hw : r.Wf) (h : r.input[r.byteIndex]? = some next)
    (hc : r.bitCount ≤ 23) :
    BitReader.Wf { r with
        bitBuffer := r.bitBuffer ||| ((next.toNat <<< r.bitCount) % 2 ^ 64)
        bitCount := r.bitCount + 8
        byteIndex := r.byteIndex + 1 } ∧
      BitReader.bits { r with
        bitBuffer := r.bitBuffer ||| ((next.toNat <<< r.bitCount) % 2 ^ 64)
        bitCount := r.bitCount + 8
        byteIndex := r.byteIndex + 1 } = r.bits := by
  have hnext : next.toNat < 2 ^ 8 := next.toNat_lt
  have hshift : next.toNat <<< r.bitCount < 2 ^ 64 := by
    rw [Nat.shiftLeft_eq]
    calc next.toNat * 2 ^ r.bitCount < 2 ^ 8 * 2 ^ r.bitCount := by
          exact Nat.mul_lt_mul_of_pos_right hnext (Nat.two_pow_pos _)
      _ = 2 ^ (8 + r.bitCount) := (Nat.pow_add 2 8 r.bitCount).symm
      _ ≤ 2 ^ 64 := Nat.pow_le_pow_right (by omega) (by omega)
  have hbuf : r.bitBuffer ||| ((next.toNat <<< r.bitCount) % 2 ^ 64) = r.bitBuffer + 2 ^ r.bitCount * next.toNat := by
    rw [Nat.mod_eq_of_lt hshift, or_shiftLeft _ hw.buffer_lt]
  have hlt : r.byteIndex < r.input.length := (List.getElem?_eq_some_iff.mp h).1
  rw [hbuf]
  refine ⟨⟨?_, hlt, by simp only; omega⟩, ?_⟩
  · simp only
    have hle : 2 ^ r.bitCount * next.toNat ≤ 2 ^ r.bitCount * (2 ^ 8 - 1) := Nat.mul_le_mul_left _ (by omega)
    have hb := hw.buffer_lt
    rw [Nat.pow_add]
    omega
  · rw [bits_eq_of_getElem? h, bits]
    simp only
    rw [ofNat_add_mul hw.buffer_lt, List.append_assoc]

/-- The loop of `peekBits` pulls in what is needed and no more than that: with enough bits it ends with at least `n` bits
buffered, and at most seven beyond `n` (or as many as were there before). -/
theorem peekLoop_ok {n : Nat} (hn : n ≤ 16) (fuel : Nat) {r : BitReader} (hw : r.Wf) (hf : n ≤ r.bitCount + fuel)
    (hlen : n ≤ r.bits.length) :
    ∃ r', peekLoop n fuel r = (.ok (), r') ∧ Consumed r r' 0 (max r.bitCount (n + 7)) ∧ n ≤ r'.bitCount := by
  induction fuel generalizing r with
  | zero =>
    exact ⟨r, rfl, ⟨hw, rfl, rfl, le_max_left _ _⟩, by omega⟩
  | succ fuel ih =>
    rw [peekLoop]
    by_cases hc : r.bitCount < n
    · rw [if_pos hc]
      cases hg : r.input[r.byteIndex]? with
      | none =>
        exfalso
        rw [List.getElem?_eq_none_iff] at hg
        rw [length_bits, availableBits] at hlen
        omega
      | some next =>
        obtain ⟨hw', hb'⟩ := pull_spec hw hg (by omega)
        have hnp : ¬(64 ≤ r.bitCount ∨ 256 ≤ r.bitCount + 8) := by omega
        simp only [if_neg hnp]
        obtain ⟨r', h1, h2, h3⟩ := ih hw' (by simp only; omega) (by rw [hb']; exact hlen)
        refine ⟨r', h1, ⟨h2.wf, h2.input_eq, by rw [h2.bits_eq, hb'], ?_⟩, h3⟩
        have hle := h2.count_le
        simp only at hle
        omega
    · rw [if_neg hc]
      exact ⟨r, rfl, ⟨hw, rfl, rfl, le_max_left _ _⟩, by omega⟩

/-- With too few bits the loop of `peekBits` ends in the end-of-input error, on the same slice. -/
theorem peekLoop_eof {n : Nat} (hn : n ≤ 16) (fuel : Nat) {r : BitReader} (hw : r.Wf) (hf : n ≤ r.bitCount + fuel)
    (hlen : r.bits.length < n) :
    ∃ r', peekLoop n fuel r = (.err eofError, r') ∧ r'.input = r.input := by
  induction fuel generalizing r with
  | zero =>
    exfalso
    rw [length_bits, availableBits] at hlen
    omega
  | succ fuel ih =>
    have hc : r.bitCount < n := by
      rw [length_bits, availableBits] at hlen
      omega
    rw [peekLoop, if_pos hc]
    cases hg : r.input[r.byteIndex]? with
    | none => exact ⟨r, rfl, rfl⟩
    | some next =>
      obtain ⟨hw', hb'⟩ := pull_spec hw hg (by omega)
      have hnp : ¬(64 ≤ r.bitCount ∨ 256 ≤ r.bitCount + 8) := by omega
      simp only [if_neg hnp]
      obtain ⟨r', h1, h2⟩ := ih hw' (by simp only; omega) (by rw [hb']; exact hlen)
      exact ⟨r', h1, h2⟩

/-- The low bits of the buffer are the next bits of the reader. -/
theorem buffer_mod {r : BitReader} (hw : r.Wf) {n : Nat} (hn : n ≤ r.bitCount) :
    r.bitBuffer % 2 ^ n = toNat (r.bits.take n) := by
  have hlen : (ofNat r.bitCount r.bitBuffer).length = r.bitCount := length_ofNat _ _
  rw [bits, List.take_append_of_le_length (by rw [hlen]; exact hn), toNat_take (by rw [hlen]; exact hn),
    toNat_ofNat_of_lt hw.buffer_lt]

/-- What `peekBits` returns when enough bits are buffered: the value of the next `n`. -/
theorem peek_value {r : BitReader} (hw : r.Wf) {n : Nat} (hn : n ≤ r.bitCount) (h16 : n ≤ 16) :
    (r.bitBuffer &&& ((1 <<< n) - 1)) % 2 ^ 16 = toNat (r.bits.take n) := by
  have hlt : r.bitBuffer % 2 ^ n < 2 ^ 16 :=
    (Nat.mod_lt _ (Nat.two_pow_pos n)).trans_le (Nat.pow_le_pow_right (by omega) h16)
  rw [Nat.shiftLeft_eq, Nat.one_mul, Nat.and_two_pow_sub_one_eq_mod, Nat.mod_eq_of_lt hlt, buffer_mod hw hn]

/-- Peeking `n` bits of a reader that has them: their value; the reader has the same bits to give. -/
theorem peekBits_ok {n : Nat} (hn : n ≤ 16) {r : BitReader} (hw : r.Wf) (hlen : n ≤ r.bits.length) :
    ∃ r', peekBits n r = (.ok (toNat (r.bits.take n)), r') ∧ Consumed r r' 0 (max r.bitCount (n + 7)) ∧ n ≤ r'.bitCount := by
  obtain ⟨r', h1, h2, h3⟩ := peekLoop_ok hn n hw (by omega) hlen
  refine ⟨r', ?_, h2, h3⟩
  have hbits : r'.bits = r.bits := by rw [h2.bits_eq, List.drop_zero]
  have h64 : ¬64 ≤ n := by omega
  rw [peekBits, h1, Reading.andThen_ok, if_neg h64, peek_value h2.wf h3 hn, hbits]

/-- Peeking past the end of the input: the end-of-input error. -/
theorem peekBits_eof {n : Nat} (hn : n ≤ 16) {r : BitReader} (hw : r.Wf) (hlen : r.bits.length < n) :
    ∃ r', peekBits n r = (.err eofError, r') ∧ r'.input = r.input := by
  obtain ⟨r', h1, h2⟩ := peekLoop_eof hn n hw (by omega) hlen
  exact ⟨r', by rw [peekBits, h1, Reading.andThen_err], h2⟩

/-- Consuming `n` buffered bits: the rest of the buffer, shifted down. -/
theorem shift_consumed {r : BitReader} (hw : r.Wf) {n : Nat} (hn : n ≤ r.bitCount) :
    Consumed r { r with bitBuffer := r.bitBuffer >>> n, bitCount := r.bitCount - n } n (r.bitCount - n) := by
  refine ⟨⟨?_, hw.index_le, (Nat.sub_le _ _).trans hw.count_le⟩, rfl, ?_, le_rfl⟩
  · simp only
    rw [Nat.shiftRight_eq_div_pow, Nat.div_lt_iff_lt_mul (Nat.two_pow_pos n), ← Nat.pow_add, Nat.sub_add_cancel hn]
    exact hw.buffer_lt
  · rw [bits, bits]
    simp only
    rw [Nat.shiftRight_eq_div_pow, List.drop_append_of_le_length (by simp [hn]), drop_ofNat _ hn]

/-- Skipping `n` bits that are buffered. -/
theorem skipBits_buffered {n : Nat} (hn : n ≤ 16) {r : BitReader} (hw : r.Wf) (hc : n ≤ r.bitCount) :
    ∃ r', skipBits n r = (.ok (), r') ∧ Consumed r r' n (r.bitCount - n) := by
  refine ⟨_, ?_, shift_consumed hw hc⟩
  have h1 : ¬r.bitCount < n := by omega
  have h2 : ¬(64 ≤ n ∨ r.bitCount < n) := by omega
  rw [skipBits, if_neg h1, Reading.andThen_ok, if_neg h2]

/-- Reading `n` bits of a reader that has them: their value, and at most seven bits more than before are buffered. -/
theorem readBits_ok {n : Nat} (hn : n ≤ 16) {r : BitReader} (hw : r.Wf) (hlen : n ≤ r.bits.length) :
    ∃ r', readBits n r = (.ok (toNat (r.bits.take n)), r') ∧ Consumed r r' n (max (r.bitCount - n) 7) := by
  obtain ⟨r₁, h1, h2, h3⟩ := peekBits_ok hn hw hlen
  obtain ⟨r₂, h4, h5⟩ := skipBits_buffered hn h2.wf h3
  refine ⟨r₂, ?_, ?_⟩
  · rw [readBits, h1, Reading.andThen_ok, h4, Reading.andThen_ok]
  · have hc := h2.trans h5
    rw [Nat.zero_add] at hc
    have hle := h2.count_le
    exact hc.mono (by omega)

/-- Reading past the end of the input: the end-of-input error. -/
theorem readBits_eof {n : Nat} (hn : n ≤ 16) {r : BitReader} (hw : r.Wf) (hlen : r.bits.length < n) :
    ∃ r', readBits n r = (.err eofError, r') ∧ r'.input = r.input := by
  obtain ⟨r', h1, h2⟩ := peekBits_eof hn hw hlen
  exact ⟨r', by rw [readBits, h1, Reading.andThen_err], h2⟩

/-- Reading one bit of a reader that has one. -/
theorem readBit_ok {r : BitReader} (hw : r.Wf) (hlen : 1 ≤ r.bits.length) :
    ∃ r', readBit r = (.ok (toNat (r.bits.take 1) != 0), r') ∧ Consumed r r' 1 (max (r.bitCount - 1) 7) := by
  obtain ⟨r', h1, h2⟩ := readBits_ok (by omega) hw hlen
  exact ⟨r', by rw [readBit, h1, Reading.andThen_ok], h2⟩

/-- Aligning discards the bits left of the byte the reader is in: as many as the bits to give exceed whole bytes. -/
theorem alignToByte_consumed {r : BitReader} (hw : r.Wf) :
    Consumed r r.alignToByte (r.bits.length % 8) (r.bitCount - r.bitCount % 8) := by
  have hmod : r.bits.length % 8 = r.bitCount % 8 := by
    rw [length_bits, availableBits]
    omega
  rw [hmod]
  exact shift_consumed hw (Nat.mod_le _ _)

/-- Reading whole bytes with an empty buffer. -/
theorem readBytes_ok (len : Nat) {r : BitReader} (hw : r.Wf) (hc : r.bitCount = 0) (hlen : 8 * len ≤ r.bits.length) :
    ∃ bytes r', readBytes len r = (.ok bytes, r') ∧ Consumed r r' (8 * len) 0 ∧ bytes.length = len ∧
      ofBytes bytes = r.bits.take (8 * len) := by
  have hbits : r.bits = ofBytes (r.input.drop r.byteIndex) := by rw [bits, hc, ofNat_zero_width, List.nil_append]
  have hin : len ≤ (r.input.drop r.byteIndex).length := by
    rw [hbits, length_ofBytes] at hlen
    omega
  have hle : r.byteIndex + len ≤ r.input.length := by
    rw [List.length_drop] at hin
    have := hw.index_le
    omega
  refine ⟨(r.input.drop r.byteIndex).take len, { r with byteIndex := r.byteIndex + len, bitBuffer := 0, bitCount := 0 },
    ?_, ⟨⟨by simp, hle, by simp⟩, rfl, ?_, le_rfl⟩, List.length_take_of_le hin, ?_⟩
  · have h0 : r.bitCount / 8 = 0 := by rw [hc]
    have hsafe : ¬(r.bitCount % 8 ≠ 0 ∨ r.byteIndex < 0) := by omega
    simp only [readBytes, h0, if_neg hsafe, Nat.sub_zero, if_pos hle]
  · rw [hbits, drop_ofBytes, List.drop_drop, bits]
    simp
  · rw [hbits, take_ofBytes]

/-- Reading whole bytes past the end of the input: the end-of-input error. -/
theorem readBytes_eof (len : Nat) {r : BitReader} (hw : r.Wf) (hc : r.bitCount = 0) (hlen : r.bits.length < 8 * len) :
    ∃ r', readBytes len r = (.err eofError, r') ∧ r'.input = r.input := by
  have h0 : r.bitCount / 8 = 0 := by rw [hc]
  have hsafe : ¬(r.bitCount % 8 ≠ 0 ∨ r.byteIndex < 0) := by omega
  have hindex := hw.index_le
  have hlt : ¬r.byteIndex + len ≤ r.input.length := by
    rw [length_bits, availableBits] at hlen
    omega
  refine ⟨{ r with bitBuffer := 0, bitCount := 0 }, ?_, rfl⟩
  simp only [readBytes, h0, if_neg hsafe, Nat.sub_zero, if_neg hlt]

end BitReader

/-! ## The writer -/

/-- A bit writer that appends to a byte vector. -/
structure BitWriter where
  output : List UInt8
  bitBuffer : Nat
  bitCount : Nat
  deriving DecidableEq, Repr

namespace BitWriter

/-- A writer seeded with the buffered bits left over from a previous block. -/
def newSeeded (output : List UInt8) (bitBuffer bitCount : Nat) : BitWriter := { output, bitBuffer, bitCount }

/-- The loop of `writeBits`: push whole bytes while there are any. A byte pushed takes eight bits, so the bit count bounds the
rounds. -/
def flushLoop : Nat → BitWriter → BitWriter
  | 0, w => w
  | fuel + 1, w =>
    if 8 ≤ w.bitCount then
      flushLoop fuel
        { output := w.output ++ [UInt8.ofNat w.bitBuffer], bitBuffer := w.bitBuffer >>> 8, bitCount := w.bitCount - 8 }
    else w

/-- Write the low `bitCount` bits of a value. More than sixteen bits are a failed assertion. -/
def writeBits (bitCount bits : Nat) (w : BitWriter) : Exec BitWriter :=
  if 16 < bitCount ∨ 64 ≤ w.bitCount ∨ 256 ≤ w.bitCount + bitCount then .panic
  else
    let w := { w with bitBuffer := w.bitBuffer ||| ((bits <<< w.bitCount) % 2 ^ 64), bitCount := w.bitCount + bitCount }
    .ok (flushLoop w.bitCount w)

/-- Write one bit. -/
def writeBit (bit : Bool) (w : BitWriter) : Exec BitWriter := w.writeBits 1 bit.toNat

/-- Zero-pad the current partial byte, if any, and push it to the output. -/
def alignToByte (w : BitWriter) : BitWriter :=
  if 0 < w.bitCount then
    { output := w.output ++ [UInt8.ofNat w.bitBuffer], bitBuffer := 0, bitCount := 0 }
  else w

/-- Align and drop the writer. -/
def finish (w : BitWriter) : BitWriter := w.alignToByte

/-- The bits written: those of the bytes pushed and the buffered ones. -/
def bits (w : BitWriter) : List Bool := ofBytes w.output ++ ofNat w.bitCount w.bitBuffer

/-- A well-formed writer keeps fewer than eight bits in its buffer, and no bit beyond its count. -/
structure Wf (w : BitWriter) : Prop where
  buffer_lt : w.bitBuffer < 2 ^ w.bitCount
  count_lt : w.bitCount < 8

/-- One byte's bits are those of the low byte of a number. -/
theorem ofNat_eight_ofNat (v : Nat) : ofNat 8 (UInt8.ofNat v).toNat = ofNat 8 v := by
  rw [UInt8.toNat_ofNat', ofNat_mod]

/-- Flushing pushes the whole bytes and keeps the bits. -/
theorem flushLoop_spec (fuel : Nat) (w : BitWriter) (hb : w.bitBuffer < 2 ^ w.bitCount) (hf : w.bitCount < 8 * fuel + 8) :
    (flushLoop fuel w).Wf ∧ (flushLoop fuel w).bits = w.bits := by
  induction fuel generalizing w with
  | zero => exact ⟨⟨hb, by simp only [flushLoop]; omega⟩, rfl⟩
  | succ fuel ih =>
    rw [flushLoop]
    by_cases hc : 8 ≤ w.bitCount
    · rw [if_pos hc]
      have hshift : w.bitBuffer >>> 8 < 2 ^ (w.bitCount - 8) := by
        rw [Nat.shiftRight_eq_div_pow, Nat.div_lt_iff_lt_mul (Nat.two_pow_pos 8), ← Nat.pow_add, Nat.sub_add_cancel hc]
        exact hb
      obtain ⟨h1, h2⟩ := ih ⟨w.output ++ [UInt8.ofNat w.bitBuffer], w.bitBuffer >>> 8, w.bitCount - 8⟩ hshift
        (by simp only; omega)
      refine ⟨h1, h2.trans ?_⟩
      obtain ⟨k, hk⟩ := Nat.exists_eq_add_of_le hc
      rw [bits, bits]
      simp only
      rw [ofBytes_append, ofBytes_cons, ofBytes_nil, ofNat_eight_ofNat, hk, ofNat_add, Nat.add_sub_cancel_left,
        Nat.shiftRight_eq_div_pow, List.append_nil, List.append_assoc]
    · rw [if_neg hc]
      exact ⟨⟨hb, by omega⟩, rfl⟩

/-- A field of up to sixteen bits has room in the buffer. -/
theorem shiftLeft_lt {n v : Nat} {w : BitWriter} (hw : w.Wf) (hn : n ≤ 16) (hv : v < 2 ^ n) : v <<< w.bitCount < 2 ^ 64 := by
  have hcount := hw.count_lt
  have hfield : v * 2 ^ w.bitCount < 2 ^ n * 2 ^ w.bitCount := Nat.mul_lt_mul_of_pos_right hv (Nat.two_pow_pos _)
  have hroom : 2 ^ (n + w.bitCount) ≤ 2 ^ 64 := Nat.pow_le_pow_right Nat.two_pos (by omega)
  rw [Nat.shiftLeft_eq]
  rw [Nat.pow_add] at hroom
  exact Nat.lt_of_lt_of_le hfield hroom

/-- Writing a field is in range, and appends its bits. -/
theorem writeBits_spec {n v : Nat} {w : BitWriter} (hw : w.Wf) (hn : n ≤ 16) (hv : v < 2 ^ n) :
    ∃ w', w.writeBits n v = .ok w' ∧ w'.Wf ∧ w'.bits = w.bits ++ ofNat n v := by
  have hcount := hw.count_lt
  have hrange : ¬(16 < n ∨ 64 ≤ w.bitCount ∨ 256 ≤ w.bitCount + n) := by omega
  rw [writeBits, if_neg hrange, Nat.mod_eq_of_lt (shiftLeft_lt hw hn hv)]
  have hor : w.bitBuffer ||| (v <<< w.bitCount) = w.bitBuffer + 2 ^ w.bitCount * v := or_shiftLeft v hw.buffer_lt
  have hb : w.bitBuffer ||| (v <<< w.bitCount) < 2 ^ (w.bitCount + n) := by
    rw [hor, Nat.pow_add]
    have h1 := hw.buffer_lt
    have h2 : 2 ^ w.bitCount * (v + 1) ≤ 2 ^ w.bitCount * 2 ^ n := Nat.mul_le_mul_left _ hv
    rw [Nat.mul_add, Nat.mul_one] at h2
    omega
  obtain ⟨h1, h2⟩ := flushLoop_spec (w.bitCount + n)
    { w with bitBuffer := w.bitBuffer ||| (v <<< w.bitCount), bitCount := w.bitCount + n } hb (by simp only; omega)
  refine ⟨_, rfl, h1, h2.trans ?_⟩
  rw [bits, bits]
  simp only
  rw [hor, ofNat_add_mul hw.buffer_lt, List.append_assoc]

theorem writeBit_spec (b : Bool) {w : BitWriter} (hw : w.Wf) :
    ∃ w', w.writeBit b = .ok w' ∧ w'.Wf ∧ w'.bits = w.bits ++ [b] := by
  have hb : b.toNat < 2 ^ 1 := Bool.toNat_lt b
  have h := writeBits_spec hw (by decide) hb
  have h1 : ofNat 1 b.toNat = [b] := by cases b <;> rfl
  rwa [h1] at h

/-- Aligning appends the zero bits up to the next byte and empties the buffer. -/
theorem alignToByte_spec {w : BitWriter} (hw : w.Wf) :
    w.alignToByte.bitBuffer = 0 ∧ w.alignToByte.bitCount = 0 ∧ ofBytes w.alignToByte.output = w.bits ++ pad w.bits := by
  have hmod : w.bits.length % 8 = w.bitCount := by
    have := hw.count_lt
    rw [bits, List.length_append, length_ofBytes, length_ofNat]
    omega
  have hpad : pad w.bits = List.replicate ((8 - w.bitCount) % 8) false := by rw [pad, hmod]
  have hlt := hw.count_lt
  rw [alignToByte, hpad]
  by_cases hc : 0 < w.bitCount
  · rw [if_pos hc]
    refine ⟨rfl, rfl, ?_⟩
    have h8 : w.bitCount + (8 - w.bitCount) % 8 = 8 := by omega
    rw [bits, ofBytes_append, ofBytes_cons, ofBytes_nil, ofNat_eight_ofNat, List.append_nil, List.append_assoc,
      ← ofNat_add_of_lt _ hw.buffer_lt, h8]
  · rw [if_neg hc]
    have h0 : w.bitCount = 0 := by omega
    have hb0 : w.bitBuffer = 0 := by
      have := hw.buffer_lt
      rw [h0] at this
      omega
    refine ⟨hb0, h0, ?_⟩
    rw [bits, h0]
    simp

end BitWriter

end Noflate
