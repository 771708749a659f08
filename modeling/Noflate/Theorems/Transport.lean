import Noflate.Error
import Noflate.Decode

/-!
# The transport of bits

What a `BitWriter` writes, a `BitReader` reads back, although either is dropped and made anew at any time: the writer between two
fields, out of its bit state, and the reader between two pieces of the bytes, out of its residual bits and the bytes it has not
committed (`transport_exact`). A read that runs out of input is taken back and made again when there is more.
-/

namespace Noflate

open BitString

namespace Transport

/-- What is written: a field of bits, the alignment to the next byte, or whole bytes. -/
inductive Item where
  | field (n v : Nat)
  | align
  | raw (bytes : List UInt8)
  deriving DecidableEq, Repr

/-- What the reader knows of an item. -/
inductive Shape where
  | field (n : Nat)
  | align
  | raw (len : Nat)
  deriving DecidableEq, Repr

/-- The shape of an item. -/
def Item.shape : Item → Shape
  | .field n _ => .field n
  | .align => .align
  | .raw bytes => .raw bytes.length

/-- Whether whole bytes may follow an item. -/
def Item.aligned : Item → Bool
  | .field _ _ => false
  | .align => true
  | .raw _ => true

/-- Fields of up to sixteen bits with a value that fits, and whole bytes only behind an alignment or other whole bytes. -/
def Sound : Bool → List Item → Prop
  | _, [] => True
  | _, .field n v :: items => n ≤ 16 ∧ v < 2 ^ n ∧ Sound false items
  | _, .align :: items => Sound true items
  | aligned, .raw _ :: items => aligned = true ∧ Sound true items

/-! ## Writing -/

/-- Write an item: whole bytes go behind the output. -/
def put (w : BitWriter) : Item → Exec BitWriter
  | .field n v => w.writeBits n v
  | .align => .ok w.alignToByte
  | .raw bytes => .ok { w with output := w.output ++ bytes }

/-- Drop a writer and make it anew out of its bit state. -/
def recreate (w : BitWriter) : BitWriter := BitWriter.newSeeded w.output w.bitBuffer w.bitCount

/-- Write items; the mark of an item says whether the writer is made anew behind it. -/
def putAll : List (Item × Bool) → BitWriter → Exec BitWriter
  | [], w => .ok w
  | e :: writes, w => do
    let w ← put w e.1
    putAll writes (if e.2 then recreate w else w)

/-! ## Reading -/

/-- Read an item of a shape. -/
def get (r : BitReader) : Shape → Reading Item
  | .field n => Reading.andThen (r.readBits n) fun v r => (.ok (.field n v), r)
  | .align => (.ok .align, r.alignToByte)
  | .raw len => Reading.andThen (r.readBytes len) fun bytes r => (.ok (.raw bytes), r)

/-- The reading of some items: those that have been read, the shapes of the others, and the reader. -/
structure Progress where
  items : List Item
  shapes : List Shape
  reader : BitReader

/-- Up to so many reads. A read that runs out of input is taken back with the snapshot from before it. -/
def getSome : Nat → Progress → Exec Progress
  | 0, p => .ok p
  | limit + 1, p =>
    match p.shapes with
    | [] => .ok p
    | shape :: shapes =>
      let snap := p.reader.snapshot
      match get p.reader shape with
      | (.ok item, r) => getSome limit { items := p.items ++ [item], shapes, reader := r }
      | (.err e, r) => if isEofError e then .ok { p with reader := r.restore snap } else .err e
      | (.panic, _) => .panic
      | (.diverge, _) => .diverge

/-- Make the reader anew out of its residual bits, for the bytes it has not committed and a new piece behind them. -/
def Progress.feed (p : Progress) (piece : List UInt8) : Progress :=
  { p with
    reader := BitReader.newSeeded (p.reader.input.drop p.reader.byteIndex ++ piece) p.reader.bitBuffer p.reader.bitCount }

/-- Read the bytes piece by piece, with up to so many reads on each piece. -/
def getPieces (pieces : List (List UInt8 × Nat)) (p : Progress) : Exec Progress :=
  pieces.foldlM (fun p e => getSome e.2 (p.feed e.1)) p

/-- The beginning: nothing has been read. -/
def start (shapes : List Shape) : Progress := { items := [], shapes, reader := BitReader.newSeeded [] 0 0 }

theorem Sound.front {aligned : Bool} {items later : List Item} (h : Sound aligned (items ++ later)) : Sound aligned items := by
  induction items generalizing aligned with
  | nil => exact trivial
  | cons item items ih =>
    cases item with
    | field n v =>
      obtain ⟨hn, hv, hrest⟩ := h
      exact ⟨hn, hv, ih hrest⟩
    | align => exact ih h
    | raw bytes =>
      obtain ⟨haligned, hrest⟩ := h
      exact ⟨haligned, ih hrest⟩

/-! ## The bits of items -/

/-- Bits that stand for items, up to the end of a byte. -/
inductive Encodes : List Item → List Bool → Prop
  | nil {pad : List Bool} (h : pad.length < 8) : Encodes [] pad
  | field {n v : Nat} {items : List Item} {bits : List Bool} (h : Encodes items bits) :
      Encodes (.field n v :: items) (ofNat n v ++ bits)
  | align {items : List Item} {pad bits : List Bool} (hpad : pad.length < 8) (hbits : bits.length % 8 = 0) (h : Encodes items bits) :
      Encodes (.align :: items) (pad ++ bits)
  | raw {bytes : List UInt8} {items : List Item} {bits : List Bool} (h : Encodes items bits) :
      Encodes (.raw bytes :: items) (ofBytes bytes ++ bits)

/-- A writer that whole bytes may follow has an empty buffer. -/
def Ready (w : BitWriter) (aligned : Bool) : Prop := w.Wf ∧ (aligned = true → w.bitCount = 0)

/-- A writer with an empty buffer has written whole bytes. -/
theorem bits_of_empty {w : BitWriter} (h : w.bitCount = 0) : w.bits = ofBytes w.output := by
  rw [BitWriter.bits, h, ofNat_zero_width, List.append_nil]

theorem ready_of_empty {w : BitWriter} (hb : w.bitBuffer = 0) (hc : w.bitCount = 0) (aligned : Bool) : Ready w aligned := by
  refine ⟨⟨?_, ?_⟩, fun _ => hc⟩
  · rw [hb]
    exact Nat.two_pow_pos _
  · rw [hc]
    decide

theorem Sound.rest {aligned : Bool} {item : Item} {items : List Item} (h : Sound aligned (item :: items)) :
    Sound item.aligned items := by
  cases item with
  | field n v => exact h.2.2
  | align => exact h
  | raw bytes => exact h.2

/-- Writing an item leaves a writer ready for what may follow, and bits that stand for the others behind it stand for all of them. -/
theorem Ready.put {w : BitWriter} {aligned : Bool} {item : Item} {items : List Item} (h : Ready w aligned)
    (hsound : Sound aligned (item :: items)) :
    ∃ w', put w item = .ok w' ∧ Ready w' item.aligned ∧
      ∀ output bits, ofBytes output = w'.bits ++ bits → Encodes items bits →
        ∃ bits', ofBytes output = w.bits ++ bits' ∧ Encodes (item :: items) bits' := by
  obtain ⟨hw, hcount⟩ := h
  cases item with
  | field n v =>
    obtain ⟨hn, hv, -⟩ := hsound
    obtain ⟨w', hok, hw', hbits'⟩ := BitWriter.writeBits_spec hw hn hv
    refine ⟨w', hok, ⟨hw', fun h => absurd h Bool.false_ne_true⟩, fun output bits hbits hencodes => ?_⟩
    exact ⟨ofNat n v ++ bits, by rw [hbits, hbits', List.append_assoc], .field hencodes⟩
  | align =>
    obtain ⟨h1, h2, h3⟩ := BitWriter.alignToByte_spec hw
    refine ⟨_, rfl, ready_of_empty h1 h2 true, fun output bits hbits hencodes => ?_⟩
    have halign : w.alignToByte.bits = w.bits ++ pad w.bits := by rw [bits_of_empty h2, h3]
    have hlen := congrArg List.length hbits
    rw [length_ofBytes, List.length_append, halign] at hlen
    have hpad := length_append_pad w.bits
    exact ⟨pad w.bits ++ bits, by rw [hbits, halign, List.append_assoc], .align (length_pad_lt _) (by omega) hencodes⟩
  | raw bytes =>
    have h0 := hcount hsound.1
    refine ⟨_, rfl, ⟨⟨hw.buffer_lt, hw.count_lt⟩, fun _ => h0⟩, fun output bits hbits hencodes => ?_⟩
    refine ⟨ofBytes bytes ++ bits, ?_, .raw hencodes⟩
    rw [hbits, bits_of_empty h0, bits_of_empty (w := { w with output := w.output ++ bytes }) h0, ofBytes_append, List.append_assoc]

/-- Making a writer anew changes nothing. -/
theorem recreate_eq (w : BitWriter) : recreate w = w := rfl

/-- Items are written, each in range: the writer keeps less than eight bits, and its output when it is finished is, behind the bits
before, bits that stand for the items. -/
theorem putAll_encodes (writes : List (Item × Bool)) {w : BitWriter} {aligned : Bool} (h : Ready w aligned)
    (hsound : Sound aligned (writes.map Prod.fst)) :
    ∃ w', putAll writes w = .ok w' ∧ w'.Wf ∧
      ∃ bits, ofBytes w'.finish.output = w.bits ++ bits ∧ Encodes (writes.map Prod.fst) bits := by
  induction writes generalizing w aligned with
  | nil =>
    obtain ⟨-, -, h3⟩ := BitWriter.alignToByte_spec h.1
    exact ⟨w, rfl, h.1, pad w.bits, h3, .nil (length_pad_lt _)⟩
  | cons e writes ih =>
    obtain ⟨item, mark⟩ := e
    rw [List.map_cons] at hsound ⊢
    obtain ⟨w₁, hput, h₁, hall⟩ := h.put hsound
    obtain ⟨w', hputAll, hw', bits, hbits, hencodes⟩ := ih h₁ hsound.rest
    refine ⟨w', ?_, hw', hall _ bits hbits hencodes⟩
    rw [putAll, hput, Exec.ok_bind, recreate_eq, ite_self, hputAll]

/-! ## Reading the bits back -/

theorem Encodes.field_inv {n v : Nat} {items : List Item} {bits : List Bool} (h : Encodes (.field n v :: items) bits) :
    n ≤ bits.length ∧ bits.take n = ofNat n v ∧ Encodes items (bits.drop n) := by
  cases h with
  | field h =>
    have hlen : (ofNat n v).length = n := length_ofNat n v
    refine ⟨by rw [List.length_append, hlen]; exact Nat.le_add_right _ _, List.take_left' hlen, ?_⟩
    rwa [List.drop_left' hlen]

theorem Encodes.align_inv {items : List Item} {bits : List Bool} (h : Encodes (.align :: items) bits) :
    Encodes items (bits.drop (bits.length % 8)) := by
  cases h with
  | align hpad hbits h =>
    rename_i pad bits
    have hlen : (pad ++ bits).length % 8 = pad.length := by
      rw [List.length_append]
      omega
    rwa [hlen, List.drop_left' rfl]

theorem Encodes.raw_inv {bytes : List UInt8} {items : List Item} {bits : List Bool} (h : Encodes (.raw bytes :: items) bits) :
    8 * bytes.length ≤ bits.length ∧ bits.take (8 * bytes.length) = ofBytes bytes ∧
      Encodes items (bits.drop (8 * bytes.length)) := by
  cases h with
  | raw h =>
    have hlen : (ofBytes bytes).length = 8 * bytes.length := length_ofBytes bytes
    refine ⟨by rw [List.length_append, hlen]; exact Nat.le_add_right _ _, List.take_left' hlen, ?_⟩
    rwa [List.drop_left' hlen]

/-- A reader that has the items before it: with the bytes it has not been given yet, its bits stand for them. -/
structure Tracks (r : BitReader) (rest : List UInt8) (aligned : Bool) (items : List Item) : Prop where
  wf : r.Wf
  count_le : r.bitCount ≤ 7
  count_aligned : aligned = true → r.bitCount = 0
  sound : Sound aligned items
  encodes : Encodes items (r.bits ++ ofBytes rest)

/-- A read gives the next item, or runs out of input; it does not run out when the reader has been given all bytes. -/
theorem Tracks.get {r : BitReader} {rest : List UInt8} {aligned : Bool} {item : Item} {items : List Item}
    (h : Tracks r rest aligned (item :: items)) :
    (∃ r', get r item.shape = (.ok item, r') ∧ Tracks r' rest item.aligned items) ∨
      ∃ r', get r item.shape = (.err eofError, r') ∧ r'.input = r.input ∧ rest ≠ [] := by
  have hlen : (r.bits ++ ofBytes rest).length = r.bits.length + 8 * rest.length := by
    rw [List.length_append, length_ofBytes]
  -- with all bytes given, what the items take is there
  have hmore : ∀ n, n ≤ (r.bits ++ ofBytes rest).length → ¬n ≤ r.bits.length → rest ≠ [] := by
    rintro n hn hnot rfl
    rw [ofBytes_nil, List.append_nil] at hn
    exact hnot hn
  cases item with
  | field n v =>
    obtain ⟨h16, hv, hsound⟩ := h.sound
    obtain ⟨hn, htake, hrest⟩ := h.encodes.field_inv
    by_cases henough : n ≤ r.bits.length
    · obtain ⟨r', h1, h2⟩ := BitReader.readBits_ok h16 h.wf henough
      rw [List.take_append_of_le_length henough] at htake
      rw [List.drop_append_of_le_length henough, ← h2.bits_eq] at hrest
      have hcount := h2.count_le
      have hle := h.count_le
      refine .inl ⟨r', ?_, h2.wf, by omega, fun haligned => absurd haligned Bool.false_ne_true, hsound, hrest⟩
      rw [Item.shape, Transport.get, h1, htake, toNat_ofNat_of_lt hv, Reading.andThen_ok]
    · obtain ⟨r', h1, h2⟩ := BitReader.readBits_eof h16 h.wf (Nat.lt_of_not_le henough)
      exact .inr ⟨r', by rw [Item.shape, Transport.get, h1, Reading.andThen_err], h2, hmore n hn henough⟩
  | align =>
    have hconsumed := BitReader.alignToByte_consumed h.wf
    have hrest := h.encodes.align_inv
    have hmod : (r.bits ++ ofBytes rest).length % 8 = r.bits.length % 8 := by omega
    rw [hmod, List.drop_append_of_le_length (Nat.mod_le _ _), ← hconsumed.bits_eq] at hrest
    have hcount := hconsumed.count_le
    have hle := h.count_le
    exact .inl ⟨r.alignToByte, rfl, hconsumed.wf, by omega, fun _ => by omega, h.sound, hrest⟩
  | raw bytes =>
    obtain ⟨haligned, hsound⟩ := h.sound
    obtain ⟨hn, htake, hrest⟩ := h.encodes.raw_inv
    have h0 := h.count_aligned haligned
    by_cases henough : 8 * bytes.length ≤ r.bits.length
    · obtain ⟨bytes', r', h1, h2, -, h4⟩ := BitReader.readBytes_ok bytes.length h.wf h0 henough
      rw [List.take_append_of_le_length henough, ← h4] at htake
      rw [List.drop_append_of_le_length henough, ← h2.bits_eq] at hrest
      have hcount := h2.count_le
      refine .inl ⟨r', ?_, h2.wf, by omega, fun _ => by omega, hsound, hrest⟩
      rw [Item.shape, Transport.get, h1, ofBytes_injective htake, Reading.andThen_ok]
    · obtain ⟨r', h1, h2⟩ := BitReader.readBytes_eof bytes.length h.wf h0 (Nat.lt_of_not_le henough)
      exact .inr ⟨r', by rw [Item.shape, Transport.get, h1, Reading.andThen_err], h2, hmore _ hn henough⟩

/-- A reader made anew for more bytes tracks the same items. -/
theorem Tracks.feed {p : Progress} {piece rest : List UInt8} {aligned : Bool} {items : List Item}
    (h : Tracks p.reader (piece ++ rest) aligned items) : Tracks (p.feed piece).reader rest aligned items := by
  have hbits : (p.feed piece).reader.bits = p.reader.bits ++ ofBytes piece := by
    simp only [Progress.feed, BitReader.newSeeded, BitReader.bits, List.drop_zero]
    rw [ofBytes_append, List.append_assoc]
  refine ⟨⟨h.wf.buffer_lt, Nat.zero_le _, h.wf.count_le⟩, h.count_le, h.count_aligned, h.sound, ?_⟩
  have hencodes := h.encodes
  rwa [ofBytes_append, ← List.append_assoc, ← hbits] at hencodes

/-- Where the reading of all items stands when the reader has still to be given some bytes. -/
def Progress.On (p : Progress) (all : List Item) (rest : List UInt8) : Prop :=
  ∃ aligned remaining, p.items ++ remaining = all ∧ p.shapes = remaining.map Item.shape ∧ Tracks p.reader rest aligned remaining

/-- Reading some items: it goes on as far as they are there, and with all bytes given it reads as many as the limit says. -/
theorem getSome_on (limit : Nat) {p : Progress} {all : List Item} {rest : List UInt8} (h : p.On all rest) :
    ∃ p', getSome limit p = .ok p' ∧ p'.On all rest ∧ (rest = [] → p.shapes.length ≤ limit → p'.shapes = []) := by
  induction limit generalizing p with
  | zero =>
    refine ⟨p, rfl, h, ?_⟩
    intro _ hle
    exact List.eq_nil_of_length_eq_zero (Nat.le_zero.mp hle)
  | succ limit ih =>
    obtain ⟨items, shapes, r⟩ := p
    obtain ⟨aligned, remaining, hall, hshapes, htracks⟩ := h
    simp only at hall hshapes htracks
    cases remaining with
    | nil =>
      obtain rfl : shapes = [] := hshapes
      exact ⟨_, rfl, ⟨aligned, [], hall, rfl, htracks⟩, fun _ _ => rfl⟩
    | cons item remaining =>
      obtain rfl : shapes = item.shape :: remaining.map Item.shape := hshapes
      rcases htracks.get with ⟨r', hget, htracks'⟩ | ⟨r', hget, hinput, hmore⟩
      · have hon : Progress.On { items := items ++ [item], shapes := remaining.map Item.shape, reader := r' } all rest :=
          ⟨item.aligned, remaining, by simpa using hall, rfl, htracks'⟩
        obtain ⟨p', h1, h2, h3⟩ := ih hon
        refine ⟨p', ?_, h2, fun hrest hle => h3 hrest (Nat.le_of_succ_le_succ hle)⟩
        simp only [getSome, hget]
        exact h1
      · refine ⟨{ items, shapes := item.shape :: remaining.map Item.shape, reader := r }, ?_,
          ⟨aligned, item :: remaining, hall, rfl, htracks⟩, fun hrest => absurd hrest hmore⟩
        have heof : isEofError eofError = true := rfl
        simp only [getSome, hget, heof, if_true, BitReader.restore_snapshot hinput]

/-- Reading piece by piece. -/
theorem getPieces_on (pieces : List (List UInt8 × Nat)) {p : Progress} {all : List Item} {rest : List UInt8}
    (h : p.On all ((pieces.map Prod.fst).flatten ++ rest)) : ∃ p', getPieces pieces p = .ok p' ∧ p'.On all rest := by
  induction pieces generalizing p with
  | nil => exact ⟨p, rfl, h⟩
  | cons e pieces ih =>
    obtain ⟨aligned, remaining, hall, hshapes, htracks⟩ := h
    rw [List.map_cons, List.flatten_cons, List.append_assoc] at htracks
    have hon : (p.feed e.1).On all ((pieces.map Prod.fst).flatten ++ rest) := ⟨aligned, remaining, hall, hshapes, htracks.feed⟩
    obtain ⟨p₁, h1, h2, -⟩ := getSome_on e.2 hon
    obtain ⟨p', h3, h4⟩ := ih h2
    refine ⟨p', ?_, h4⟩
    rw [getPieces, List.foldlM_cons, h1, Exec.ok_bind]
    exact h3

/-- One piece more, behind pieces that have been read. -/
theorem getPieces_concat (pieces : List (List UInt8 × Nat)) {e : List UInt8 × Nat} {p p₁ p₂ : Progress}
    (h : getPieces pieces p = .ok p₁) (he : getSome e.2 (p₁.feed e.1) = .ok p₂) : getPieces (pieces ++ [e]) p = .ok p₂ := by
  unfold getPieces at h ⊢
  induction pieces generalizing p with
  | nil =>
    obtain rfl := Exec.ok.inj h
    rw [List.nil_append, List.foldlM_cons, he, Exec.ok_bind]
    rfl
  | cons e' pieces ih =>
    rw [List.foldlM_cons] at h
    obtain ⟨p', h1, h2⟩ := Exec.bind_eq_ok.mp h
    rw [List.cons_append, List.foldlM_cons, h1, Exec.ok_bind]
    exact ih h2

end Transport

open Transport

/-- The reading of what was written, before the first piece. -/
theorem start_on (writes : List (Item × Bool)) (hsound : Sound true (writes.map Prod.fst)) :
    ∃ w, putAll writes (BitWriter.newSeeded [] 0 0) = .ok w ∧ w.bitCount < 8 ∧
      (start (writes.map fun e => e.1.shape)).On (writes.map Prod.fst) w.finish.output := by
  have hready : Ready (BitWriter.newSeeded [] 0 0) true := ready_of_empty rfl rfl true
  obtain ⟨w, hput, hw, bits, hbits, hencodes⟩ := putAll_encodes writes hready hsound
  have hempty : (BitWriter.newSeeded [] 0 0).bits = [] := rfl
  have hnone : (BitReader.newSeeded [] 0 0).bits = [] := rfl
  rw [hempty, List.nil_append] at hbits
  refine ⟨w, hput, hw.count_lt, true, writes.map Prod.fst, rfl, by rw [List.map_map]; rfl, ⟨Nat.one_pos, Nat.zero_le _, Nat.zero_le _⟩,
    Nat.zero_le _, fun _ => rfl, hsound, ?_⟩
  rw [start, hnone, List.nil_append, hbits]
  exact hencodes

/-- Any items, written with the writer made anew behind any of them. No write is out of range, and the writer keeps less than eight bits
at all times. The finished output, in pieces of whatever lengths, with any number of reads on each before the reader is made anew for
the next: what has been read is the first of the items, and none of the reads fails for another reason than the end of the input; and
when the last piece is there, all the others are read. -/
theorem transport_exact (writes : List (Item × Bool)) (hsound : Sound true (writes.map Prod.fst)) :
    (∀ earlier, earlier <+: writes → ∃ w, putAll earlier (BitWriter.newSeeded [] 0 0) = .ok w ∧ w.bitCount < 8) ∧
    ∃ w, putAll writes (BitWriter.newSeeded [] 0 0) = .ok w ∧
    (∀ (pieces : List (List UInt8 × Nat)) (rest : List UInt8), (pieces.map Prod.fst).flatten ++ rest = w.finish.output →
      ∃ p, getPieces pieces (start (writes.map fun e => e.1.shape)) = .ok p ∧ p.items <+: writes.map Prod.fst ∧
        p.items.length + p.shapes.length = writes.length) ∧
    ∀ (pieces : List (List UInt8 × Nat)) (last : List UInt8) (limit : Nat), writes.length ≤ limit →
      (pieces.map Prod.fst).flatten ++ last = w.finish.output →
      ∃ p, getPieces (pieces ++ [(last, limit)]) (start (writes.map fun e => e.1.shape)) = .ok p ∧
        p.items = writes.map Prod.fst ∧ p.shapes = [] := by
  obtain ⟨w, hput, -, hon⟩ := start_on writes hsound
  have hread : ∀ (pieces : List (List UInt8 × Nat)) (rest : List UInt8), (pieces.map Prod.fst).flatten ++ rest = w.finish.output →
      ∃ p, getPieces pieces (start (writes.map fun e => e.1.shape)) = .ok p ∧ p.On (writes.map Prod.fst) rest := by
    intro pieces rest hsplit
    rw [← hsplit] at hon
    exact getPieces_on pieces hon
  refine ⟨?_, w, hput, ?_, ?_⟩
  · intro earlier hprefix
    obtain ⟨later, rfl⟩ := hprefix
    rw [List.map_append] at hsound
    obtain ⟨w', hput', hcount, -⟩ := start_on earlier hsound.front
    exact ⟨w', hput', hcount⟩
  · intro pieces rest hsplit
    obtain ⟨p, hp, aligned, remaining, hall, hshapes, -⟩ := hread pieces rest hsplit
    have hlen := congrArg List.length hall
    rw [List.length_append, List.length_map] at hlen
    refine ⟨p, hp, ⟨remaining, hall⟩, ?_⟩
    rw [hshapes, List.length_map, hlen]
  · intro pieces last limit hlimit hsplit
    obtain ⟨p, hp, aligned, remaining, hall, hshapes, htracks⟩ := hread pieces last hsplit
    have hlen := congrArg List.length hall
    rw [List.length_append, List.length_map] at hlen
    have hfeed : (p.feed last).On (writes.map Prod.fst) [] :=
      ⟨aligned, remaining, hall, hshapes, Tracks.feed (by rwa [List.append_nil])⟩
    obtain ⟨p', hp', ⟨_, remaining', hall', hshapes', -⟩, hdone⟩ := getSome_on limit hfeed
    have hnone : p'.shapes = [] := by
      refine hdone rfl ?_
      have hcount : (p.feed last).shapes.length = remaining.length := by
        rw [Progress.feed, hshapes, List.length_map]
      omega
    rw [hnone] at hshapes'
    obtain rfl := List.map_eq_nil_iff.mp hshapes'.symm
    rw [List.append_nil] at hall'
    exact ⟨p', getPieces_concat pieces hp hp', hall', hnone⟩

/-- Three bits, an alignment, two bytes and nine bits, read from pieces of one, three and one byte. -/
theorem transport_exact_pieces :
    ∃ p, getPieces ([([5], 3), ([1, 2, 44], 0)] ++ [([1], 4)]) (start [.field 3, .align, .raw 2, .field 9]) = .ok p ∧
      p.items = [.field 3 5, .align, .raw [1, 2], .field 9 300] ∧ p.shapes = [] := by
  obtain ⟨-, w, hput, -, hread⟩ :=
    transport_exact [(.field 3 5, true), (.align, false), (.raw [1, 2], true), (.field 9 300, false)]
      ⟨by decide, by decide, rfl, by decide, by decide, trivial⟩
  have hwriter : putAll [(.field 3 5, true), (.align, false), (.raw [1, 2], true), (.field 9 300, false)]
      (BitWriter.newSeeded [] 0 0) = .ok { output := [5, 1, 2, 44], bitBuffer := 1, bitCount := 1 } := rfl
  obtain rfl := Exec.ok.inj (hput.symm.trans hwriter)
  exact hread [([5], 3), ([1, 2, 44], 0)] [1] 4 (by decide) rfl

end Noflate
