import Gem5Nvm.Base
import Gem5Nvm.Lib.Run

/-!
# The dictionary compressors

`DictionaryCompressor` of `mem/cache/compressors/dictionary_compressor.hh` and
`dictionary_compressor_impl.hh`, and the compressors of the tree that are one: `CPack`, `FPCD`, the
`BaseDelta` family, `RepeatedQwords` and `Zero`.  A dictionary entry, an array of bytes in the
source, is the value it holds.  A line is given by its chunks, each as wide as an entry.
-/

namespace Gem5Nvm.Compressor

/-- How the words of a pattern class are recognised and rebuilt. -/
inductive Matcher (w : ℕ)
  | uncompressed
  | masked (mask : BitVec w)
  | maskedValue (value mask : BitVec w)
  | locatedMasked (mask : BitVec w) (location : ℕ)
  | repeatedValue (repBits : ℕ)
  | delta (deltaSizeBits : ℕ)
  deriving DecidableEq, Repr

/-- `isValidDelta`, on the signed type of the entries. -/
def isValidDelta {w : ℕ} (deltaSizeBits : ℕ) (bytes baseBytes : BitVec w) : Bool :=
  let limit : ℤ := if deltaSizeBits ≠ 0 then mask (deltaSizeBits - 1) else 0
  let delta := (bytes - baseBytes).toInt
  decide (delta ≥ -limit) && decide (delta ≤ limit)

namespace Matcher

variable {w : ℕ}

def numUnmatchedBits : Matcher w → ℕ
  | uncompressed => w
  | masked mask => popCount (~~~mask).toNat
  | maskedValue _ mask => popCount (~~~mask).toNat
  | locatedMasked mask _ => popCount (~~~mask).toNat
  | repeatedValue repBits => repBits
  | delta deltaSizeBits => deltaSizeBits

/-- `isPattern`; a negative location stands for no dictionary entry. -/
def isPattern (bytes dictBytes : BitVec w) (matchLocation : ℤ) : Matcher w → Bool
  | uncompressed => true
  | masked mask => decide (matchLocation ≥ 0) && bytes &&& mask == dictBytes &&& mask
  | maskedValue value mask => value &&& mask == bytes &&& mask
  | locatedMasked mask location => decide (matchLocation = location) &&
    (decide (matchLocation ≥ 0) && bytes &&& mask == dictBytes &&& mask)
  | repeatedValue repBits => (List.range (w / repBits)).all fun i =>
    (bytes >>> (i * repBits)).setWidth repBits == bytes.setWidth repBits
  | delta deltaSizeBits => decide (matchLocation ≥ 0) && isValidDelta deltaSizeBits bytes dictBytes

/-- `decompress` of a pattern that was made from `bytes`. -/
def decompress (bytes dictBytes : BitVec w) : Matcher w → BitVec w
  | uncompressed => bytes
  | masked mask => bytes &&& ~~~mask ||| dictBytes &&& mask
  | maskedValue value mask => bytes &&& ~~~mask ||| value &&& mask
  | locatedMasked mask _ => bytes &&& ~~~mask ||| dictBytes &&& mask
  | repeatedValue repBits => (List.range (w / repBits)).foldl
    (fun value _ => value <<< repBits ||| (bytes.setWidth repBits).setWidth w) 0
  | delta _ => bytes

end Matcher

structure PatternClass (w : ℕ) where
  metadataLength : ℕ
  matcher : Matcher w
  allocate : Bool
  deriving DecidableEq, Repr

structure Pattern (w : ℕ) where
  cls : PatternClass w
  matchLocation : ℤ
  bytes : BitVec w
  deriving DecidableEq, Repr

variable {w : ℕ}

/-- The size of the patterns of a class; both lengths are kept in a `uint8_t`. -/
def PatternClass.sizeBits (cls : PatternClass w) : ℕ :=
  cls.matcher.numUnmatchedBits % 2 ^ 8 + cls.metadataLength % 2 ^ 8

namespace Pattern

variable (p : Pattern w)

def getSizeBits : ℕ := p.cls.sizeBits

/-- The location as a `uint8_t`. -/
def getMatchLocation : ℕ := (p.matchLocation % 2 ^ 8).toNat

def shouldAllocate : Bool := p.cls.allocate

def decompress (dictBytes : BitVec w) : BitVec w := p.cls.matcher.decompress p.bytes dictBytes

end Pattern

/-- `CompressionData`, with the entries of `CompData`. -/
structure CompData (w : ℕ) where
  entries : List (Pattern w)
  sizeBits : ℕ
  deriving DecidableEq, Repr

namespace CompData

variable (data : CompData w)

def getSizeBits : ℕ := data.sizeBits

/-- `std::ceil(_size/8)`, where the division is one of integers. -/
def getSize : ℕ := data.sizeBits / 8

def addEntry (pattern : Pattern w) : CompData w :=
  ⟨data.entries ++ [pattern], data.getSizeBits + pattern.getSizeBits⟩

end CompData

/-- The dictionary and the number of its valid entries. -/
structure Dictionary (w : ℕ) where
  dictionary : List (BitVec w)
  numEntries : ℕ
  deriving DecidableEq, Repr

namespace Dictionary

variable (d : Dictionary w)

def size : ℕ := d.dictionary.length

/-- `dictionary[i]`. -/
def read (i : ℕ) : Sim (BitVec w) :=
  match d.dictionary[i]? with
  | some entry => .ok entry
  | none => .error (.undefined "dictionary[i]")

/-- `dictionary[i] = data`. -/
def write (i : ℕ) (data : BitVec w) : Sim (Dictionary w) :=
  if i < d.size then .ok { d with dictionary := d.dictionary.set i data }
  else .error (.undefined "dictionary[i]")

/-- `addToDictionary` of all compressors but `FPCD`. -/
def push (data : BitVec w) : Sim (Dictionary w) := do
  assert (decide (d.numEntries < d.size)) "numEntries < dictionarySize"
  let d' ← d.write d.numEntries data
  return { d' with numEntries := d.numEntries + 1 }

end Dictionary

/-- What the subclasses of `DictionaryCompressor` define. -/
structure DictionaryCompressor (w : ℕ) where
  /-- The classes of the pattern factory, up to the last one. -/
  factory : List (PatternClass w)
  uncompressed : PatternClass w
  /-- Whether `resetDictionary` adds a zero base. -/
  zeroBase : Bool
  addToDictionary : Dictionary w → BitVec w → Sim (Dictionary w)
  /-- What `compress` makes of the size, from the line size and the number of entries. -/
  report : ℕ → ℕ → ℕ → Sim ℕ

namespace DictionaryCompressor

variable (c : DictionaryCompressor w)

def getPattern (bytes dictBytes : BitVec w) (matchLocation : ℤ) : Pattern w :=
  let cls := (c.factory.find? fun cls => cls.matcher.isPattern bytes dictBytes matchLocation).getD
    c.uncompressed
  ⟨cls, matchLocation, bytes⟩

def resetDictionary (dictionarySize : ℕ) : Sim (Dictionary w) :=
  let d : Dictionary w := ⟨List.replicate dictionarySize 0, 0⟩
  if c.zeroBase then c.addToDictionary d 0 else .ok d

/-- The better of the pattern so far and the one of entry `i`. -/
def improve (d : Dictionary w) (bytes : BitVec w) (pattern : Pattern w) (i : ℕ) :
    Sim (Pattern w) := do
  let tempPattern := c.getPattern bytes (← d.read i) i
  return if tempPattern.getSizeBits < pattern.getSizeBits then tempPattern else pattern

def compressValue (d : Dictionary w) (bytes : BitVec w) : Sim (Pattern w × Dictionary w) := do
  let pattern ← (List.range d.numEntries).foldlM (c.improve d bytes) (c.getPattern bytes 0 (-1))
  let d ← if pattern.shouldAllocate then c.addToDictionary d bytes else .ok d
  return (pattern, d)

def compress (dictionarySize blkSize : ℕ) (chunks : List (BitVec w)) : Sim (CompData w) := do
  let d ← c.resetDictionary dictionarySize
  let (entries, d) ← Run.run c.compressValue d chunks
  let data := entries.foldl CompData.addEntry ⟨[], 0⟩
  let sizeBits ← c.report blkSize d.numEntries data.getSizeBits
  return { data with sizeBits := sizeBits }

def decompressValue (d : Dictionary w) (pattern : Pattern w) : Sim (BitVec w × Dictionary w) := do
  let data := pattern.decompress (← d.read pattern.getMatchLocation)
  let d ← if pattern.shouldAllocate then c.addToDictionary d data else .ok d
  return (data, d)

/-- One 64-bit word of the line, from the last of its values to the first. -/
def concatenate (values : List (BitVec w)) (i : ℕ) : Sim (BitVec 64) :=
  let valuesPerEntry := 64 / w
  (List.range valuesPerEntry).reverse.foldlM (fun word j =>
    match values[valuesPerEntry * i + j]? with
    | some value => .ok (word ||| value.setWidth 64 <<< (j * w))
    | none => .error (.undefined "decomp_values[i]")) 0

def decompress (dictionarySize blkSize : ℕ) (data : CompData w) : Sim (List (BitVec 64)) := do
  let d ← c.resetDictionary dictionarySize
  let (values, _) ← Run.run c.decompressValue d data.entries
  (List.range (blkSize / 8)).mapM (concatenate values)

end DictionaryCompressor

/-- A line is compressed and decompressed with every access to the dictionary in range, and its size
in bytes covers its size in bits. -/
def DictionaryCompressor.Sound (c : DictionaryCompressor w) (dictionarySize : ℕ)
    (chunks : List (BitVec w)) : Prop :=
  let blkSize := chunks.length * (w / 8)
  ∃ data line, c.compress dictionarySize blkSize chunks = .ok data ∧
    c.decompress dictionarySize blkSize data = .ok line ∧ data.getSizeBits ≤ 8 * data.getSize

/-! ## The compressors of the tree -/

/-- `MaskedPattern<mask>`. -/
def maskedPattern (mask : BitVec w) (metadataLength : ℕ) (allocate : Bool) : PatternClass w :=
  ⟨metadataLength, .masked mask, allocate⟩

/-- `MaskedValuePattern<value, mask>`. -/
def maskedValuePattern (value mask : BitVec w) (metadataLength : ℕ) (allocate : Bool) :
    PatternClass w :=
  ⟨metadataLength, .maskedValue value mask, allocate⟩

/-- `LocatedMaskedPattern<mask, location>`. -/
def locatedMaskedPattern (mask : BitVec w) (location metadataLength : ℕ) (allocate : Bool) :
    PatternClass w :=
  ⟨metadataLength, .locatedMasked mask location, allocate⟩

def uncompressedPattern (w metadataLength : ℕ) : PatternClass w :=
  ⟨metadataLength, .uncompressed, true⟩

namespace CPack

def patternZZZZ : PatternClass 32 := maskedValuePattern 0 0xFFFFFFFF 2 false
def patternXXXX : PatternClass 32 := uncompressedPattern 32 2
def patternMMMM : PatternClass 32 := maskedPattern 0xFFFFFFFF 6 true
def patternMMXX : PatternClass 32 := maskedPattern 0xFFFF0000 8 true
def patternZZZX : PatternClass 32 := maskedValuePattern 0 0xFFFFFF00 4 false
def patternMMMX : PatternClass 32 := maskedPattern 0xFFFFFF00 8 true

end CPack

def cPack : DictionaryCompressor 32 where
  factory := [CPack.patternZZZZ, CPack.patternMMMM, CPack.patternZZZX, CPack.patternMMMX,
    CPack.patternMMXX]
  uncompressed := CPack.patternXXXX
  zeroBase := false
  addToDictionary := Dictionary.push
  report := fun _ _ sizeBits => .ok sizeBits

namespace FPCD

def prefixSize : ℕ := 4

def previousIndex : ℕ := 1

def penultimateIndex : ℕ := 0

def patternZZZZ : PatternClass 32 := maskedValuePattern 0 0xFFFFFFFF prefixSize true
def patternFFFF : PatternClass 32 := maskedValuePattern 0xFFFFFFFF 0xFFFFFFFF prefixSize true
def patternMMMMPrevious : PatternClass 32 :=
  locatedMaskedPattern 0xFFFFFFFF previousIndex prefixSize true
def patternMMMMPenultimate : PatternClass 32 :=
  locatedMaskedPattern 0xFFFFFFFF penultimateIndex prefixSize true
def patternZZZX : PatternClass 32 := maskedValuePattern 0 0xFFFFFF00 prefixSize true
def patternXZZZ : PatternClass 32 := maskedValuePattern 0 0x00FFFFFF prefixSize true
def patternRRRR : PatternClass 32 := ⟨prefixSize, .repeatedValue 8, true⟩
def patternMMMXPrevious : PatternClass 32 :=
  locatedMaskedPattern 0xFFFFFF00 previousIndex prefixSize true
def patternMMMXPenultimate : PatternClass 32 :=
  locatedMaskedPattern 0xFFFFFF00 penultimateIndex prefixSize true
def patternZZXX : PatternClass 32 := maskedValuePattern 0 0xFFFF0000 prefixSize true
def patternZXZX : PatternClass 32 := maskedValuePattern 0 0xFF00FF00 prefixSize true
def patternFFXX : PatternClass 32 := maskedValuePattern 0xFFFFFFFF 0xFFFF0000 prefixSize true
def patternXXZZ : PatternClass 32 := maskedValuePattern 0 0x0000FFFF prefixSize true
def patternMMXXPrevious : PatternClass 32 :=
  locatedMaskedPattern 0xFFFF0000 previousIndex prefixSize true
def patternMMXXPenultimate : PatternClass 32 :=
  locatedMaskedPattern 0xFFFF0000 penultimateIndex prefixSize true
def patternXXXX : PatternClass 32 := uncompressedPattern 32 prefixSize

/-- A table with FIFO as replacement policy. -/
def addToDictionary (d : Dictionary 32) (data : BitVec 32) : Sim (Dictionary 32) := do
  if d.numEntries = 2 then
    let d ← d.write penultimateIndex (← d.read previousIndex)
    d.write previousIndex data
  else
    let d' ← d.write d.numEntries data
    return { d' with numEntries := d.numEntries + 1 }

end FPCD

open FPCD in
def fpcd : DictionaryCompressor 32 where
  factory := [patternZZZZ, patternFFFF, patternMMMMPrevious, patternMMMMPenultimate, patternZZZX,
    patternXZZZ, patternRRRR, patternMMMXPrevious, patternMMMXPenultimate, patternZZXX,
    patternZXZX, patternFFXX, patternXXZZ, patternMMXXPrevious, patternMMXXPenultimate]
  uncompressed := patternXXXX
  zeroBase := false
  addToDictionary := addToDictionary
  report := fun _ _ sizeBits => .ok sizeBits

namespace BaseDelta

def defaultMaxNumBases : ℕ := 2

/-- A zero delta is stored for a new base, too. -/
def patternX (w deltaSizeBits : ℕ) : PatternClass w := uncompressedPattern w (1 + deltaSizeBits)

/-- One bit says which of the two bases it is. -/
def patternM (w deltaSizeBits : ℕ) : PatternClass w := ⟨1, .delta deltaSizeBits, false⟩

/-- A line with too many bases is left as it is; bases that are not used take their place. -/
def report (w blkSize numEntries sizeBits : ℕ) : Sim ℕ :=
  let diff : ℤ := defaultMaxNumBases - numEntries
  .ok (if diff < 0 then blkSize * 8
    else if diff > 0 then sizeBits + w * diff.toNat
    else sizeBits)

end BaseDelta

def baseDelta (w deltaSizeBits : ℕ) : DictionaryCompressor w where
  factory := [BaseDelta.patternM w deltaSizeBits]
  uncompressed := BaseDelta.patternX w deltaSizeBits
  zeroBase := true
  addToDictionary := Dictionary.push
  report := BaseDelta.report w

namespace RepeatedQwords

def patternX : PatternClass 64 := uncompressedPattern 64 0

def patternM : PatternClass 64 := locatedMaskedPattern 0xFFFFFFFFFFFFFFFF 0 0 false

def report (blkSize numEntries sizeBits : ℕ) : Sim ℕ := do
  assert (decide (numEntries ≥ 1)) "numEntries >= 1"
  return if numEntries > 1 then blkSize * 8 else sizeBits

end RepeatedQwords

def repeatedQwords : DictionaryCompressor 64 where
  factory := [RepeatedQwords.patternM]
  uncompressed := RepeatedQwords.patternX
  zeroBase := false
  addToDictionary := Dictionary.push
  report := RepeatedQwords.report

namespace Zero

def patternX : PatternClass 64 := uncompressedPattern 64 0

def patternZ : PatternClass 64 := maskedValuePattern 0 0xFFFFFFFFFFFFFFFF 0 false

end Zero

def zero : DictionaryCompressor 64 where
  factory := [Zero.patternZ]
  uncompressed := Zero.patternX
  zeroBase := false
  addToDictionary := Dictionary.push
  report := fun blkSize numEntries sizeBits =>
    .ok (if numEntries > 0 then blkSize * 8 else sizeBits)

/-- The dictionary compressors of the tree. -/
inductive Kind
  | base64Delta8
  | base64Delta16
  | base64Delta32
  | base32Delta8
  | base32Delta16
  | base16Delta8
  | cPack
  | fpcd
  | repeatedQwords
  | zero
  deriving DecidableEq, Repr

namespace Kind

/-- `chunk_size_bits`, which is the size of a dictionary entry. -/
def chunkSizeBits : Kind → ℕ
  | base64Delta8 | base64Delta16 | base64Delta32 | repeatedQwords | zero => 64
  | base32Delta8 | base32Delta16 | cPack | fpcd => 32
  | base16Delta8 => 16

def compressor : (k : Kind) → DictionaryCompressor k.chunkSizeBits
  | base64Delta8 => baseDelta 64 8
  | base64Delta16 => baseDelta 64 16
  | base64Delta32 => baseDelta 64 32
  | base32Delta8 => baseDelta 32 8
  | base32Delta16 => baseDelta 32 16
  | base16Delta8 => baseDelta 16 8
  | cPack => Compressor.cPack
  | fpcd => Compressor.fpcd
  | repeatedQwords => Compressor.repeatedQwords
  | zero => Compressor.zero

/-- `dictionary_size` as `Compressors.py` has it, for lines of `blkSize` bytes. -/
def dictionarySize (blkSize : ℕ) : Kind → ℕ
  | fpcd => 2
  | _ => blkSize

/-- The size of the deltas of a `BaseDelta`. -/
def deltaSizeBits : Kind → Option ℕ
  | base64Delta8 | base32Delta8 | base16Delta8 => some 8
  | base64Delta16 | base32Delta16 => some 16
  | base64Delta32 => some 32
  | _ => none

/-! ## What a line should come to -/

/-- The dictionary has room for the entries of a line of `n` chunks. -/
def Fits (dictionarySize n : ℕ) : Kind → Prop
  | fpcd => 2 ≤ dictionarySize
  | _ => n + 1 ≤ dictionarySize

/-- Every chunk is a delta of the zero base. -/
def Immediate (k : Kind) (chunks : List (BitVec k.chunkSizeBits)) : Prop :=
  ∃ bits, k.deltaSizeBits = some bits ∧ ∀ c ∈ chunks, isValidDelta bits c 0 = true

end Kind

/-- The zero base and the first chunk that is no delta of it are bases for the line. -/
def FewBases (deltaSizeBits : ℕ) (chunks : List (BitVec w)) : Prop :=
  ∀ b, chunks.find? (fun c => !isValidDelta deltaSizeBits c 0) = some b →
    ∀ c ∈ chunks, isValidDelta deltaSizeBits c 0 = true ∨ isValidDelta deltaSizeBits c b = true

def CPack.Small (c : BitVec 32) : Prop := c &&& 0xFFFFFF00 = 0

instance : DecidablePred CPack.Small := fun c => inferInstanceAs (Decidable (c &&& 0xFFFFFF00 = 0))

def CPack.large (chunks : List (BitVec 32)) : List (BitVec 32) :=
  chunks.filter fun c => decide (¬ CPack.Small c)

/-- The bits of a line in pairs, modulo four: one pair for a zero word, two for another of one byte,
three for a repeated one, none for a new one and one if its upper half is new. -/
def CPack.loose (chunks : List (BitVec 32)) : ℕ :=
  chunks.count 0 + 2 * (chunks.countP fun c => decide (CPack.Small c ∧ c ≠ 0)) +
    3 * (CPack.large chunks).length + (CPack.large chunks).toFinset.card +
    ((CPack.large chunks).map (· &&& 0xFFFF0000)).toFinset.card

def Kind.WholeBytes : (k : Kind) → List (BitVec k.chunkSizeBits) → Prop
  | .cPack, chunks => 4 ∣ CPack.loose chunks
  | .fpcd, chunks => 2 ∣ chunks.length
  | .repeatedQwords, _ | .zero, _ => True
  | .base64Delta8, chunks => 8 ∣ chunks.length ∨ ¬ FewBases 8 chunks
  | .base64Delta16, chunks => 8 ∣ chunks.length ∨ ¬ FewBases 16 chunks
  | .base64Delta32, chunks => 8 ∣ chunks.length ∨ ¬ FewBases 32 chunks
  | .base32Delta8, chunks => 8 ∣ chunks.length ∨ ¬ FewBases 8 chunks
  | .base32Delta16, chunks => 8 ∣ chunks.length ∨ ¬ FewBases 16 chunks
  | .base16Delta8, chunks => 8 ∣ chunks.length ∨ ¬ FewBases 8 chunks

end Gem5Nvm.Compressor
