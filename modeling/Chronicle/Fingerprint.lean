import Chronicle.Bytes
import Chronicle.Text.Hex
import Chronicle.Text.Utf8

/-!
# Fingerprints

A fingerprint is the 128-bit FNV-1a digest of a byte string.  The digest is a
left fold over the octets, so feeding a string in pieces is the same as feeding
it whole.  Texts are fed with their length in front, which keeps neighbouring
texts apart.
-/

namespace Chronicle

/-- Four 32-bit words, most significant first. -/
structure Fingerprint where
  w0 : UInt32
  w1 : UInt32
  w2 : UInt32
  w3 : UInt32
  deriving DecidableEq, Repr

namespace Fingerprint

def ofBits (bits : BitVec 128) : Fingerprint where
  w0 := ⟨bits.extractLsb' 96 32⟩
  w1 := ⟨bits.extractLsb' 64 32⟩
  w2 := ⟨bits.extractLsb' 32 32⟩
  w3 := ⟨bits.extractLsb' 0 32⟩

def toBits (f : Fingerprint) : BitVec 128 :=
  f.w0.toBitVec ++ f.w1.toBitVec ++ f.w2.toBitVec ++ f.w3.toBitVec

def words (f : Fingerprint) : List UInt32 := [f.w0, f.w1, f.w2, f.w3]

def toText (f : Fingerprint) : String :=
  "-".intercalate (f.words.map fun w => Hex.lower 8 w.toNat)

/-- The words as they stand in a record: each with its low octet first. -/
def toBytes (f : Fingerprint) : Bytes :=
  f.words.flatMap fun w => leBytes 4 w.toNat

def ofBytes (bs : Bytes) : Fingerprint where
  w0 := UInt32.ofNat (ofLeBytes (bs.take 4))
  w1 := UInt32.ofNat (ofLeBytes ((bs.drop 4).take 4))
  w2 := UInt32.ofNat (ofLeBytes ((bs.drop 8).take 4))
  w3 := UInt32.ofNat (ofLeBytes ((bs.drop 12).take 4))

@[simp] theorem length_toBytes (f : Fingerprint) : f.toBytes.length = 16 := by
  simp [toBytes, words]

theorem ofBytes_toBytes (f : Fingerprint) : ofBytes f.toBytes = f := by
  have read (w : UInt32) : UInt32.ofNat (ofLeBytes (leBytes 4 w.toNat)) = w := by
    have bound : w.toNat < leBound 4 := w.toNat_lt
    rw [ofLeBytes_leBytes, Nat.mod_eq_of_lt bound, UInt32.ofNat_toNat]
  rcases f with ⟨a, b, c, d⟩
  change (⟨.ofNat (ofLeBytes (leBytes 4 a.toNat)), .ofNat (ofLeBytes (leBytes 4 b.toNat)),
    .ofNat (ofLeBytes (leBytes 4 c.toNat)), .ofNat (ofLeBytes (leBytes 4 d.toNat))⟩ :
      Fingerprint) = _
  rw [read, read, read, read]

end Fingerprint

abbrev Digest := BitVec 128

namespace Digest

def offset : Digest := 0x6c62272e07bb014262b821756295c58d

def prime : Digest := 0x0000000001000000000000000000013b

def step (d : Digest) (b : UInt8) : Digest :=
  (d ^^^ b.toBitVec.setWidth 128) * prime

def feed (d : Digest) (bs : Bytes) : Digest := bs.foldl step d

theorem feed_append (d : Digest) (xs ys : Bytes) :
    d.feed (xs ++ ys) = (d.feed xs).feed ys := by
  simp [feed]

def word (n : Nat) : Bytes := leBytes 4 n

def text (s : String) : Bytes :=
  word (Utf8.encode s).length ++ Utf8.encode s

end Digest

def Fingerprint.ofFed (bs : Bytes) : Fingerprint :=
  .ofBits (Digest.offset.feed bs)

end Chronicle
