import Chronicle.Bytes

/-!
# Text as octets

Text is stored in UTF-8.  Decoding accepts exactly the octets that some text
encodes to, so both functions are inverse to each other.
-/

namespace Chronicle.Utf8

def encode (s : String) : Bytes :=
  s.toByteArray.data.toList

def decode? (bs : Bytes) : Option String :=
  String.fromUTF8? ⟨bs.toArray⟩

@[simp] theorem decode?_encode (s : String) : decode? (encode s) = some s := by
  have valid : s.toByteArray.IsValidUTF8 := s.isValidUTF8
  simp [decode?, encode, String.fromUTF8?, String.fromUTF8, valid]

theorem encode_of_decode? {bs : Bytes} {s : String} (h : decode? bs = some s) :
    encode s = bs := by
  simp only [decode?, String.fromUTF8?] at h
  split at h
  · simp only [Option.some.injEq] at h
    subst h
    simp [encode, String.fromUTF8]
  · contradiction

theorem encode_injective {s t : String} (h : encode s = encode t) : s = t := by
  simpa using congrArg decode? h

end Chronicle.Utf8
