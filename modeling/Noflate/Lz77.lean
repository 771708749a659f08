import Noflate.Symbol
import Noflate.General.Bits

/-!
# The match finder

`MatchFinder.fillSymbols` turns a byte string into LZ77 tokens. The positions with the same hash of three bytes are chained: `head`
holds the last position of a hash, `prev` the position before it in its chain, at the index modulo the window. Both tables are
allocated when they are first needed and are kept from one call to the next; `head` is cleared at the beginning of a call.

The entries of the tables are `u32`: a position is stored modulo `2 ^ 32`, and `nil` stands for none.
-/

namespace Noflate

open BitString

/-- One LZ77 token: a literal byte, or a back-reference. -/
inductive Lz77Code where
  | literal (byte : UInt8)
  | pointer (length distance : Nat)
  deriving DecidableEq, Repr

/-- The number of bits of a hash. -/
def hashBits : Nat := 15

/-- The number of hashes. -/
def hashSize : Nat := 1 <<< hashBits

/-- The mask of a hash. -/
def hashMask : Nat := hashSize - 1

/-- The most positions of a chain that are looked at for one match. -/
def maxChainLen : Nat := 32

/-- The mark of a table entry that holds no position. -/
def nil : Nat := 2 ^ 32 - 1

/-- The hash of the three bytes at a position. -/
def hash3 (input : List UInt8) (pos : Nat) : Exec Nat := do
  let byte0 ← Exec.index input pos
  let byte1 ← Exec.index input (pos + 1)
  let byte2 ← Exec.index input (pos + 2)
  .ok (((byte0.toNat <<< 10) ^^^ (byte1.toNat <<< 5) ^^^ byte2.toNat) &&& hashMask)

/-! ## The longest common prefix -/

/-- The number of the eight bytes at a position, the low byte first. -/
def loadWord (input : List UInt8) (pos : Nat) : Exec Nat :=
  if pos + 8 ≤ input.length then .ok (leNat ((input.drop pos).take 8)) else .panic

/-- The number of zero bits at the low end of a number of so many bits. -/
def trailingZeros : Nat → Nat → Nat
  | 0, _ => 0
  | bits + 1, v => if v % 2 = 1 then 0 else trailingZeros bits (v / 2) + 1

/-- The first loop of `longestCommonPrefix`, eight bytes at a time: how many bytes agree, and whether the first byte that does not
has been met. -/
def wordLoop (input : List UInt8) (a b bounded : Nat) : Nat → Nat → Exec (Nat × Bool)
  | 0, _ => .diverge
  | fuel + 1, i =>
    if i + 8 ≤ bounded then do
      let av ← loadWord input (a + i)
      let bv ← loadWord input (b + i)
      let diff := av ^^^ bv
      if diff ≠ 0 then .ok (i + trailingZeros 64 diff / 8, true) else wordLoop input a b bounded fuel (i + 8)
    else .ok (i, false)

/-- The second loop of `longestCommonPrefix`, one byte at a time. -/
def byteLoop (input : List UInt8) (a b bounded : Nat) : Nat → Nat → Exec Nat
  | 0, _ => .diverge
  | fuel + 1, i =>
    if i < bounded then do
      let x ← Exec.index input (a + i)
      let y ← Exec.index input (b + i)
      if x = y then byteLoop input a b bounded fuel (i + 1) else .ok i
    else .ok i

/-- How many bytes agree at two positions of an input, up to a maximum. -/
def longestCommonPrefix (input : List UInt8) (a b max : Nat) : Exec Nat :=
  if b ≤ a ∨ input.length < b then .panic
  else do
    let bounded := min max (input.length - b)
    let (i, found) ← wordLoop input a b bounded (bounded + 1) 0
    if found then .ok i else byteLoop input a b bounded (bounded + 1) i

/-! ## The match finder -/

/-- The hash chains of the match finder. -/
structure MatchFinder where
  head : List Nat
  prev : List Nat
  headDirty : Bool
  deriving DecidableEq, Repr

namespace MatchFinder

/-- A match finder without tables. -/
def new : MatchFinder := { head := [], prev := [], headDirty := false }

/-- Whether a candidate can be longer than the best match so far: its byte at the best length is looked at first. -/
def worthwhile (input : List UInt8) (candidate cursor bestLength : Nat) : Exec Bool :=
  if bestLength = 0 then .ok true
  else do
    let x ← Exec.index input (candidate + bestLength)
    let y ← Exec.index input (cursor + bestLength)
    if x = y then do
      let x ← Exec.index input candidate
      let y ← Exec.index input cursor
      .ok (x == y)
    else .ok false

/-- The length of the match at a candidate, zero when it is not worth comparing. -/
def candidateLength (input : List UInt8) (candidate cursor maxLength bestLength : Nat) : Exec Nat := do
  let worth ← worthwhile input candidate cursor bestLength
  if worth then longestCommonPrefix input candidate cursor maxLength else .ok 0

/-- The loop along a chain: the length and the distance of the best match. At most `maxChainLen` positions are looked at. -/
def chainLoop (input : List UInt8) (prev : List Nat) (cursor searchStart maxLength : Nat) :
    Nat → Nat → Nat → Nat → Exec (Nat × Nat)
  | 0, _, bestLength, bestDistance => .ok (bestLength, bestDistance)
  | rounds + 1, chainPos, bestLength, bestDistance =>
    if chainPos ≠ nil ∧ searchStart ≤ chainPos ∧ chainPos < cursor then do
      let candidate := chainPos
      let length ← candidateLength input candidate cursor maxLength bestLength
      if minMatch ≤ length ∧ bestLength < length then
        if length = maxLength then .ok (length, cursor - candidate)
        else do
          let chainPos ← Exec.index prev (candidate &&& (windowSize - 1))
          chainLoop input prev cursor searchStart maxLength rounds chainPos length (cursor - candidate)
      else do
        let chainPos ← Exec.index prev (candidate &&& (windowSize - 1))
        chainLoop input prev cursor searchStart maxLength rounds chainPos bestLength bestDistance
    else .ok (bestLength, bestDistance)

/-- Put a position in front of the chain of its hash. -/
def insert (m : MatchFinder) (input : List UInt8) (pos : Nat) : Exec MatchFinder := do
  let h ← hash3 input pos
  let first ← Exec.index m.head h
  let prev ← Exec.assign m.prev (pos &&& (windowSize - 1)) first
  let head ← Exec.assign m.head h (pos % 2 ^ 32)
  .ok { m with head, prev }

/-- The loop over the positions inside a match: those with three bytes to hash are put into their chains. -/
def insertLoop (input : List UInt8) (cursor : Nat) : Nat → Nat → MatchFinder → Exec MatchFinder
  | 0, _, m => .ok m
  | rounds + 1, i, m =>
    if cursor + i + minMatch ≤ input.length then do
      let m ← m.insert input (cursor + i)
      insertLoop input cursor rounds (i + 1) m
    else insertLoop input cursor rounds (i + 1) m

/-- The loop of `fillSymbols` over the input. Every round takes a byte at least. -/
def symbolLoop (input : List UInt8) : Nat → Nat → MatchFinder → List Lz77Code → Exec (MatchFinder × List Lz77Code)
  | 0, _, _, _ => .diverge
  | fuel + 1, cursor, m, symbols =>
    if cursor < input.length then
      if input.length < cursor + minMatch then do
        let byte ← Exec.index input cursor
        symbolLoop input fuel (cursor + 1) m (symbols ++ [.literal byte])
      else do
        let h ← hash3 input cursor
        let maxLength := min (input.length - cursor) maxMatch
        let searchStart := cursor - windowSize
        let chainPos ← Exec.index m.head h
        let (bestLength, bestDistance) ← chainLoop input m.prev cursor searchStart maxLength maxChainLen chainPos 0 0
        let m ← m.insert input cursor
        if minMatch ≤ bestLength then do
          let m ← insertLoop input cursor (bestLength - 1) 1 m
          symbolLoop input fuel (cursor + bestLength) m (symbols ++ [.pointer bestLength bestDistance])
        else do
          let byte ← Exec.index input cursor
          symbolLoop input fuel (cursor + 1) m (symbols ++ [.literal byte])
    else .ok (m, symbols)

/-- The tables for an input that is hashed: `head` is allocated or cleared, and `prev` is grown to what the input needs. -/
def prepare (m : MatchFinder) (input : List UInt8) : MatchFinder :=
  let head := if m.head.isEmpty then List.replicate hashSize nil
    else if m.headDirty then m.head.map (fun _ => nil) else m.head
  let prevNeeded := min input.length windowSize
  let prev := if m.prev.length < prevNeeded then m.prev ++ List.replicate (prevNeeded - m.prev.length) nil else m.prev
  { head, prev, headDirty := true }

/-- The tokens of an input. An input shorter than a match is not hashed. -/
def fillSymbols (m : MatchFinder) (input : List UInt8) : Exec (MatchFinder × List Lz77Code) :=
  if input.length < minMatch then .ok (m, input.map .literal)
  else symbolLoop input (input.length + 1) 0 (m.prepare input) []

end MatchFinder

end Noflate
