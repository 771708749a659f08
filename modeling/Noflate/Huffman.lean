import Noflate.Bit
import Noflate.Symbol
import Mathlib.Data.List.Sort

/-!
# Huffman codes

The canonical Huffman encoder and decoder tables, and the construction of length-limited code lengths from frequencies
(package-merge).

Code lengths, symbols and code values are numbers. The code value of the tables is a `u16` in the program: its shifts drop
what leaves sixteen bits, and adding one to the last value would panic. The weights of package-merge (`usize`) and the depths of
the ordinary tree (`u8`) are not bounded here: a weight is at most fifteen times the number of tokens of one block, which are
held in memory at several bytes each, and a tree of depth `d` has a weight that grows like the Fibonacci numbers in `d`.
-/

namespace Noflate

/-- The loop of `reverseBits`: move `width` bits from the low end of one number to the low end of the other. -/
def reverseBitsLoop : Nat → Nat → Nat → Nat
  | 0, _, reversed => reversed
  | width + 1, bits, reversed => reverseBitsLoop width (bits >>> 1) (((reversed <<< 1) % 2 ^ 16) ||| (bits &&& 1))

/-- The low `width` bits of a number, in reverse order. -/
def reverseBits (bits width : Nat) : Nat := reverseBitsLoop width bits 0

/-- The symbols with a code and their widths, sorted by width; symbols of one width stay in their order. -/
def sortedSymbols (lengths : List Nat) : List (Nat × Nat) :=
  ((lengths.zipIdx.filter (fun e => 0 < e.1)).map (fun e => (e.2, e.1))).insertionSort (fun a b => a.2 ≤ b.2)

/-! ## The encoder's table -/

/-- A code of the encoder: its width, and its bits in the order they are written. -/
structure Code where
  width : Nat
  bits : Nat
  deriving DecidableEq, Repr

/-- The code of a symbol that is not used. -/
def Code.empty : Code := { width := 0, bits := 0 }

/-- The encoder side of a canonical Huffman table. -/
structure HuffmanEncoder where
  codes : List Code
  deriving DecidableEq, Repr

namespace HuffmanEncoder

/-- The loop of `fromCodeLengths`: give each symbol, in the order of the widths, the next code. -/
def assignLoop : List (Nat × Nat) → Nat → Nat → List Code → Exec (List Code)
  | [], _, _, codes => .ok codes
  | (symbol, width) :: symbols, code, previousWidth, codes =>
    if maxBits < width then .err (.invalidData "huffman code length exceeds 15 bits")
    else if width < previousWidth ∨ 16 ≤ width - previousWidth then .panic
    else do
      let code := (code <<< (width - previousWidth)) % 2 ^ 16
      let codes ← Exec.assign codes symbol { width, bits := reverseBits code width }
      if 2 ^ 16 ≤ code + 1 then .panic else assignLoop symbols (code + 1) width codes

/-- The encoder of a family of code lengths. -/
def fromCodeLengths (lengths : List Nat) : Exec HuffmanEncoder := do
  let codes ← assignLoop (sortedSymbols lengths) 0 0 (List.replicate lengths.length Code.empty)
  .ok { codes }

/-- Write the code of a symbol. -/
def encode (enc : HuffmanEncoder) (writer : BitWriter) (symbol : Nat) : Exec BitWriter := do
  let code ← Exec.index enc.codes symbol
  writer.writeBits code.width code.bits

/-- The width of the code of a symbol, zero when it has none. -/
def codeWidth (enc : HuffmanEncoder) (symbol : Nat) : Nat := (enc.codes[symbol]?.map (·.width)).getD 0

/-- The last symbol with a code. -/
def usedMaxSymbol (enc : HuffmanEncoder) : Option Nat :=
  (enc.codes.zipIdx.reverse.find? (fun e => 0 < e.1.width)).map (·.2)

end HuffmanEncoder

/-! ## The decoder's table -/

/-- The mark of a table slot that no code reaches. -/
def emptySlot : Nat := 2 ^ 16 - 1

/-- The decoder side: a flat table with `2 ^ maxBits` slots. A slot holds a symbol, shifted left by five, and its width. -/
structure HuffmanDecoder where
  table : Array Nat
  safelyPeekBits : Nat
  maxBits : Nat
  deriving DecidableEq, Repr

namespace HuffmanDecoder

/-- The inner loop of `fromCodeLengths`: write a code's value into every slot whose low bits are the code. -/
def fillLoop (reversed width value : Nat) : Nat → Nat → Array Nat → Exec (Array Nat)
  | 0, _, table => .ok table
  | rounds + 1, padding, table =>
    let index := ((padding <<< width) % 2 ^ 16) ||| reversed
    match table[index]? with
    | none => .panic
    | some slot =>
      if slot ≠ emptySlot then .err (.invalidData "conflicting huffman codes")
      else fillLoop reversed width value rounds (padding + 1) (table.setIfInBounds index value)

/-- The outer loop of `fromCodeLengths`: give each symbol, in the order of the widths, the next code, and note the width of
the end-of-block symbol. -/
def assignLoop (maxBits : Nat) (eobSymbol : Option Nat) :
    List (Nat × Nat) → Nat → Nat → Nat → Array Nat → Exec (Array Nat × Nat)
  | [], _, _, actualSafelyPeek, table => .ok (table, actualSafelyPeek)
  | (symbol, width) :: entries, code, previousWidth, actualSafelyPeek, table =>
    if width < previousWidth ∨ 16 ≤ width - previousWidth then .panic
    else do
      let code := (code <<< (width - previousWidth)) % 2 ^ 16
      let reversed := reverseBits code width
      let value := ((symbol <<< 5) % 2 ^ 16) ||| width
      let table ← fillLoop reversed width value (1 <<< (maxBits - width)) 0 table
      let actualSafelyPeek := if some symbol = eobSymbol then width else actualSafelyPeek
      if 2 ^ 16 ≤ code + 1 then .panic else assignLoop maxBits eobSymbol entries (code + 1) width actualSafelyPeek table

/-- The decoder of a family of code lengths. -/
def fromCodeLengths (lengths : List Nat) (safelyPeekBits eobSymbol : Option Nat) : Exec HuffmanDecoder :=
  let maxBits := lengths.foldl max 0
  if maxBits = 0 then .err (.invalidData "huffman table is empty")
  else if Noflate.maxBits < maxBits then .err (.invalidData "huffman table uses too many bits")
  else do
    let (table, actualSafelyPeek) ← assignLoop maxBits eobSymbol (sortedSymbols lengths) 0 0 (safelyPeekBits.getD maxBits)
      (Array.replicate (1 <<< maxBits) emptySlot)
    .ok { table, safelyPeekBits := min maxBits (max actualSafelyPeek 1), maxBits }

/-- The loop of `decode`: peek, look up, and peek further if the slot found is wider. The width peeked grows in every round and
a slot's width is below 32, so 33 rounds are enough. -/
def decodeLoop (dec : HuffmanDecoder) : Nat → Nat → BitReader → Reading Nat
  | 0, _, r => (.diverge, r)
  | fuel + 1, peekBits, r =>
    Reading.andThen (r.peekBits peekBits) fun bits r =>
      match dec.table[bits]? with
      | none => (.panic, r)
      | some value =>
        let width := value &&& 31
        if width ≤ peekBits ∧ value ≠ emptySlot then
          Reading.andThen (r.skipBits width) fun _ r => (.ok (value >>> 5), r)
        else if dec.maxBits < width ∨ value = emptySlot then (.err (.invalidData "invalid huffman coded stream"), r)
        else decodeLoop dec fuel width r

/-- Read one symbol. -/
def decode (dec : HuffmanDecoder) (r : BitReader) : Reading Nat := decodeLoop dec 33 dec.safelyPeekBits r

end HuffmanDecoder

/-! ## Length-limited code lengths -/

/-- The order of the binary heap of the ordinary Huffman tree, the largest pair first: the smallest weight, which is stored
negated, and among equal weights the largest width. -/
def heapBefore (a b : Int × Nat) : Prop := b.1 < a.1 ∨ (b.1 = a.1 ∧ b.2 ≤ a.2)

instance : DecidableRel heapBefore := fun a b => inferInstanceAs (Decidable (b.1 < a.1 ∨ (b.1 = a.1 ∧ b.2 ≤ a.2)))

/-- The loop of `ordinaryHuffmanOptimalMaxBitwidth`: merge the two lightest trees while there are two. A merge takes one tree
away, so the number of trees bounds the rounds. -/
def ordinaryLoop : Nat → List (Int × Nat) → Nat
  | fuel + 1, (weight1, width1) :: (weight2, width2) :: heap =>
    ordinaryLoop fuel (List.orderedInsert heapBefore (weight1 + weight2, 1 + max width1 width2) heap)
  | _, (_, width) :: _ => max 1 width
  | _, [] => max 1 0

/-- The depth of the ordinary Huffman tree of the frequencies. -/
def ordinaryHuffmanOptimalMaxBitwidth (frequencies : List Nat) : Nat :=
  let heap := ((frequencies.filter (fun value => 0 < value)).map (fun (frequency : Nat) => (-(frequency : Int), 0))).insertionSort
    heapBefore
  ordinaryLoop heap.length heap

/-- A node of package-merge: the symbols of the leaves it subsumes, with repetition, and its weight. -/
structure Node where
  symbols : List Nat
  weight : Nat
  deriving DecidableEq, Repr

/-- The merge of `mergeNodes` while the head of the left list is `l`: nodes of the right list go first as long as `l` is not
lighter; `rest` merges what comes after `l`. -/
def mergeHead (l : Node) (rest : List Node → List Node) : List Node → List Node
  | [] => l :: rest []
  | r :: right => if l.weight < r.weight then l :: rest (r :: right) else r :: mergeHead l rest right

/-- Merge two lists of nodes by weight; of equal weights the right one goes first. -/
def mergeNodes : List Node → List Node → List Node
  | [] => fun right => right
  | l :: left => mergeHead l (mergeNodes left)

/-- The loop of `package`: join the nodes two by two; an odd last node is dropped. -/
def packagePairs : List Node → List Node
  | a :: b :: nodes => { symbols := a.symbols ++ b.symbols, weight := a.weight + b.weight } :: packagePairs nodes
  | _ => []

/-- Join the nodes of a list two by two; a list of one node stays as it is. -/
def package (nodes : List Node) : List Node := if nodes.length < 2 then nodes else packagePairs nodes

/-- The leaves of package-merge, sorted by weight. -/
def sourceNodes (frequencies : List Nat) : List Node :=
  ((frequencies.zipIdx.filter (fun e => 0 < e.1)).map (fun e => { symbols := [e.2], weight := e.1 })).insertionSort
    (fun a b => a.weight ≤ b.weight)

/-- The lists of package-merge after a number of rounds. -/
def weightedNodes (source : List Node) : Nat → List Node
  | 0 => source
  | rounds + 1 => mergeNodes (package (weightedNodes source rounds)) source

/-- Count a symbol. -/
def countSymbol (widths : List Nat) (sym : Nat) : Exec (List Nat) := do
  let width ← Exec.index widths sym
  Exec.assign widths sym (width + 1)

/-- Code lengths by package-merge: the width of a symbol is the number of times it appears in the packages of the last list. -/
def packageMergeCodeLengths (frequencies : List Nat) (maxBitwidth : Nat) : Exec (List Nat) :=
  let packaged := package (weightedNodes (sourceNodes frequencies) (maxBitwidth - 1))
  (packaged.flatMap (·.symbols)).foldlM countSymbol (List.replicate frequencies.length 0)

/-- Code lengths from symbol frequencies, of at most `maxBitwidth` bits. -/
def lengthLimitedCodeLengths (frequencies : List Nat) (maxBitwidth : Nat) : Exec (List Nat) :=
  packageMergeCodeLengths frequencies (min maxBitwidth (ordinaryHuffmanOptimalMaxBitwidth frequencies))

end Noflate
