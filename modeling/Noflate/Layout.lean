import Noflate.Encoding

/-!
# How the input is cut

An encoder, seen from its input: it cuts it into pieces, each of which is emitted on its own. `Layout` is what it has cut so far, and what
it still holds. As much as a block takes is cut off as soon as there is as much; a flush cuts off what there is, and puts an empty
piece behind it; `finish` cuts off the last piece, which may be empty.
-/

namespace Noflate

/-- A piece of the input, the kind of the blocks it is emitted as, and whether the last of them ends the stream. -/
structure Piece where
  kind : BlockKind
  chunk : List UInt8
  isFinal : Bool
  deriving DecidableEq, Repr

/-- The full chunks that bytes begin with. -/
def fullChunks (limit : Nat) (data : List UInt8) : List (List UInt8) :=
  if 0 < limit ∧ limit ≤ data.length then data.take limit :: fullChunks limit (data.drop limit) else []
termination_by data.length
decreasing_by
  rw [List.length_drop]
  omega

/-- What is behind the full chunks. -/
def lastChunk (limit : Nat) (data : List UInt8) : List UInt8 :=
  if 0 < limit ∧ limit ≤ data.length then lastChunk limit (data.drop limit) else data
termination_by data.length
decreasing_by
  rw [List.length_drop]
  omega

/-- What an encoder has cut, what it holds, and whether the last piece is cut. -/
structure Layout where
  pieces : List Piece
  pending : List UInt8
  finishing : Bool
  deriving DecidableEq, Repr

namespace Layout

/-- Nothing is cut. -/
def start : Layout := { pieces := [], pending := [], finishing := false }

/-- A call. Behind the last piece nothing is cut. -/
def call (options : EncodeOptions) (l : Layout) : Command → Layout
  | .feed data =>
    if l.finishing then l
    else
      match options.maxBlockInputBytes with
      | some limit => { l with
          pieces := l.pieces ++ (fullChunks limit (l.pending ++ data)).map fun chunk => ⟨options.blockKind, chunk, false⟩
          pending := lastChunk limit (l.pending ++ data) }
      | none => { l with pending := l.pending ++ data }
  | .syncFlush =>
    if l.finishing then l
    else
      { l with
        pieces := l.pieces ++ ((if l.pending = [] then [] else [⟨options.blockKind, l.pending, false⟩]) ++ [⟨.stored, [], false⟩])
        pending := [] }
  | .finish =>
    if l.finishing then l
    else { pieces := l.pieces ++ [⟨options.blockKind, l.pending, true⟩], pending := [], finishing := true }
  | .resetHistory => l
  | .advance _ => l

/-- Calls, one after the other. -/
def run (options : EncodeOptions) (commands : List Command) (l : Layout) : Layout := commands.foldl (call options) l

/-- The bytes that pieces hold. -/
def bytes (pieces : List Piece) : List UInt8 := pieces.flatMap Piece.chunk

end Layout

/-! ## Chunks -/

theorem fullChunks_step {limit : Nat} {data : List UInt8} (h : 0 < limit ∧ limit ≤ data.length) :
    fullChunks limit data = data.take limit :: fullChunks limit (data.drop limit) ∧
      lastChunk limit data = lastChunk limit (data.drop limit) := by
  rw [fullChunks, lastChunk, if_pos h, if_pos h]
  exact ⟨rfl, rfl⟩

/-- What is shorter than a chunk is left. -/
theorem fullChunks_rest {limit : Nat} {data : List UInt8} (h : ¬(0 < limit ∧ limit ≤ data.length)) :
    fullChunks limit data = [] ∧ lastChunk limit data = data := by
  rw [fullChunks, lastChunk, if_neg h, if_neg h]
  exact ⟨rfl, rfl⟩

/-- The chunks and what is behind them are the bytes; the chunks are full and what is behind them is not. -/
theorem fullChunks_spec {limit : Nat} (hlimit : 0 < limit) (data : List UInt8) :
    (fullChunks limit data).flatten ++ lastChunk limit data = data ∧ (∀ chunk ∈ fullChunks limit data, chunk.length = limit) ∧
      (lastChunk limit data).length < limit := by
  induction data using fullChunks.induct limit with
  | case1 data h ih =>
    obtain ⟨h1, h2⟩ := fullChunks_step h
    obtain ⟨h3, h4, h5⟩ := ih
    rw [h1, h2]
    refine ⟨?_, ?_, h5⟩
    · rw [List.flatten_cons, List.append_assoc, h3, List.take_append_drop]
    · intro chunk hchunk
      rcases List.mem_cons.mp hchunk with rfl | hchunk
      · rw [List.length_take, Nat.min_eq_left h.2]
      · exact h4 chunk hchunk
  | case2 data h =>
    obtain ⟨h1, h2⟩ := fullChunks_rest h
    rw [h1, h2]
    refine ⟨rfl, fun chunk hchunk => absurd hchunk List.not_mem_nil, ?_⟩
    omega

end Noflate
