import VectorImage.Bytes.LittleEndian
import VectorImage.Input.Parser

/-!
Deflated data. Blocks hold bytes as they are, or literals and matches: copies of what came up to
32768 bytes before. Both are written in prefix codes, which are fixed or described in the block.
Bits are taken from the lowest of each byte on.
-/

set_option autoImplicit false
set_option relaxedAutoImplicit false

namespace VectorImage

namespace Inflate

/-- A reader of bits; every fault is the same. -/
abbrev BitScan (α : Type) := Parser Bool Unit α

def fault {α : Type} : BitScan α := Parser.fail ()

def orFault {α : Type} : Option α → BitScan α
  | some a => return a
  | none => fault

/-- The bits of a list of bytes. -/
def bitsOf (bytes : List UInt8) : List Bool :=
  bytes.flatMap fun b => (List.range 8).map fun i => b.toNat.testBit i

/-- The natural that bits write, lowest first. -/
def natOf (bits : List Bool) : Nat := bits.foldr (fun bit n => bit.toNat + 2 * n) 0

/-- A natural of some bits. -/
def nat (count : Nat) : BitScan Nat := do
  return natOf (← Parser.takeExactly count fun _ => ())

/-- A prefix code: how many words there are of each length from one on, and what they stand for,
shorter words first. Words of one length follow each other as naturals. -/
structure PrefixCode where
  counts : List Nat
  symbols : Array Nat

namespace PrefixCode

/-- The greatest length of a word. -/
def maxLength : Nat := 15

/-- The code in which each symbol has a word of the given length, or none for a length of zero. A
code for more than one symbol leaves no word unused. -/
def ofLengths? (lengths : List Nat) : Option PrefixCode :=
  let wordLengths := (List.range maxLength).map (· + 1)
  let used := (wordLengths.map fun length =>
    lengths.count length * 2 ^ (maxLength - length)).foldr (· + ·) 0
  let symbolCount := lengths.countP (· != 0)
  if symbolCount ≤ 1 || used = 2 ^ maxLength then
    some {
      counts := wordLengths.map lengths.count
      symbols := (wordLengths.flatMap fun length =>
        (lengths.zipIdx.filter fun p => p.1 = length).map Prod.snd).toArray
    }
  else none

/-- Read a symbol, given the counts of the words that are longer than what has been read. Of the
words of the next length, `first` is the least and stands for the symbol at `index`. -/
def readFrom (symbols : Array Nat) (word first index : Nat) : (counts : List Nat) → BitScan Nat
  | [] => fault
  | count :: counts => do
    let word := 2 * word + (← nat 1)
    if word < first + count then orFault symbols[index + (word - first)]?
    else readFrom symbols word (2 * (first + count)) (index + count) counts

def read (code : PrefixCode) : BitScan Nat := readFrom code.symbols 0 0 0 code.counts

end PrefixCode

/-- The codes of a block: for literals and lengths of matches, and for their distances. -/
structure Codes where
  literals : PrefixCode
  distances : PrefixCode

/-- The codes that need no description. -/
def fixedCodes? : Option Codes := do
  let literals ← PrefixCode.ofLengths? (List.replicate 144 8 ++ List.replicate 112 9 ++
    List.replicate 24 7 ++ List.replicate 8 8)
  return ⟨literals, ← PrefixCode.ofLengths? (List.replicate 32 5)⟩

/-- The order in which the lengths of the words for lengths are written. -/
def lengthOrder : List Nat := [16, 17, 18, 0, 8, 7, 9, 6, 10, 5, 11, 4, 12, 3, 13, 2, 14, 1, 15]

/-- The next lengths of words, as they are described: one length, or the last one or zero several
times. -/
def wordLengths (code : PrefixCode) (reversed : List Nat) : BitScan (List Nat) := do
  match ← code.read with
  | 16 => return List.replicate (3 + (← nat 2)) (← orFault reversed.head?)
  | 17 => return List.replicate (3 + (← nat 3)) 0
  | 18 => return List.replicate (11 + (← nat 7)) 0
  | length => return [length]

/-- The description of codes. -/
def describedCodes : BitScan Codes := do
  let literalCount := 257 + (← nat 5)
  let distanceCount := 1 + (← nat 5)
  let written ← Parser.replicate (nat 3) (4 + (← nat 4))
  let lengths := (List.range lengthOrder.length).map fun symbol =>
    ((lengthOrder.zip written).lookup symbol).getD 0
  let code ← orFault (PrefixCode.ofLengths? lengths)
  let total := literalCount + distanceCount
  let reversed ← Parser.iterate (fun (reversed : List Nat) => do
    if total ≤ reversed.length then return none
    return some ((← wordLengths code reversed).reverse ++ reversed)) []
  if reversed.length ≠ total then fault
  let lengths := reversed.reverse
  return {
    literals := ← orFault (PrefixCode.ofLengths? (lengths.take literalCount))
    distances := ← orFault (PrefixCode.ofLengths? (lengths.drop literalCount))
  }

/-- The least length of each class of matches, and how many bits choose one in it. -/
def lengthClasses : List (Nat × Nat) :=
  [(3, 0), (4, 0), (5, 0), (6, 0), (7, 0), (8, 0), (9, 0), (10, 0), (11, 1), (13, 1), (15, 1),
    (17, 1), (19, 2), (23, 2), (27, 2), (31, 2), (35, 3), (43, 3), (51, 3), (59, 3), (67, 4),
    (83, 4), (99, 4), (115, 4), (131, 5), (163, 5), (195, 5), (227, 5), (258, 0)]

/-- The least distance of each class, and how many bits choose one in it. -/
def distanceClasses : List (Nat × Nat) :=
  [(1, 0), (2, 0), (3, 0), (4, 0), (5, 1), (7, 1), (9, 2), (13, 2), (17, 3), (25, 3), (33, 4),
    (49, 4), (65, 5), (97, 5), (129, 6), (193, 6), (257, 7), (385, 7), (513, 8), (769, 8),
    (1025, 9), (1537, 9), (2049, 10), (3073, 10), (4097, 11), (6145, 11), (8193, 12), (12289, 12),
    (16385, 13), (24577, 13)]

/-- A number of a class. -/
def ofClass (classes : List (Nat × Nat)) (index : Nat) : BitScan Nat := do
  let (least, bits) ← orFault classes[index]?
  return least + (← nat bits)

/-- Copy bytes from so far back, some of which the copy may have written itself. -/
def copy (distance : Nat) : (length : Nat) → Array UInt8 → Option (Array UInt8)
  | 0, out => some out
  | length + 1, out =>
    if distance ≤ out.size then
      out[out.size - distance]?.bind fun b => copy distance length (out.push b)
    else none

/-- Literals and matches up to the end of a block. -/
def codedBlock (codes : Codes) (out : Array UInt8) : BitScan (Array UInt8) := do
  let (out, isComplete) ← Parser.iterate (fun (s : Array UInt8 × Bool) => do
    let (out, isComplete) := s
    if isComplete then return none
    let symbol ← codes.literals.read
    if symbol < 256 then return some (out.push (UInt8.ofNat symbol), false)
    if symbol = 256 then return some (out, true)
    let length ← ofClass lengthClasses (symbol - 257)
    let distance ← ofClass distanceClasses (← codes.distances.read)
    return some (← orFault (copy distance length out), false)) (out, false)
  if isComplete then return out else fault

/-- Bytes as they are, from the next byte on. -/
def storedBlock (out : Array UInt8) : BitScan (Array UInt8) := do
  let passed := (← Parser.input).offset % 8
  let _ ← nat ((8 - passed) % 8)
  let length ← nat 16
  let complement ← nat 16
  if length + complement ≠ 0xffff then fault
  let bytes ← Parser.replicate (nat 8) length
  return out ++ (bytes.map UInt8.ofNat).toArray

/-- A block, and whether it is the last. -/
def block (out : Array UInt8) : BitScan (Array UInt8 × Bool) := do
  let isLast := (← nat 1) = 1
  let out ← match ← nat 2 with
    | 0 => storedBlock out
    | 1 => do codedBlock (← orFault fixedCodes?) out
    | 2 => do codedBlock (← describedCodes) out
    | _ => fault
  return (out, isLast)

/-- All blocks. -/
def blocks : BitScan (Array UInt8) := do
  let (out, isComplete) ← Parser.iterate (fun (s : Array UInt8 × Bool) => do
    if s.2 then return none
    return some (← block s.1)) (#[], false)
  if isComplete then return out else fault

/-- Read deflated data that bytes begin with: what it holds, and how many bytes it takes. -/
def read? (bytes : List UInt8) : Option (List UInt8 × Nat) :=
  match (do
    let out ← blocks
    return (out.toList, ((← Parser.input).offset + 7) / 8) : BitScan _).parse (bitsOf bytes) with
  | .ok result => some result
  | .error _ => none

end Inflate

end VectorImage
