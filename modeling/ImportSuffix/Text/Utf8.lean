/-!
Text as bytes.

File contents, names and arguments are bytes that need not be text.  `decode?`
reads them strictly and undoes `encode`; `display` shows them to a human, with a
replacement character for each part that is not UTF-8.
-/

namespace ImportSuffix.Text

abbrev Bytes := List UInt8

def encode (text : String) : Bytes := text.toUTF8.data.toList

/-- The text that bytes spell, if they are UTF-8. -/
def decode? (bytes : Bytes) : Option String := String.fromUTF8? bytes.toByteArray

@[simp] theorem decode?_encode (text : String) : decode? (encode text) = some text := by
  have same : (encode text).toByteArray = text.toUTF8 := ByteArray.ext (by simp [encode])
  rw [decode?, same]
  simp [String.fromUTF8?, String.fromUTF8, text.isValidUTF8]

theorem encode_of_decode? {bytes : Bytes} {text : String}
    (decoded : decode? bytes = some text) : encode text = bytes := by
  simp only [decode?, String.fromUTF8?, Option.dite_none_right_eq_some,
    Option.some.injEq] at decoded
  obtain ⟨_, rfl⟩ := decoded
  simp [encode, String.fromUTF8]

theorem decode?_eq_some_iff {bytes : Bytes} {text : String} :
    decode? bytes = some text ↔ bytes = encode text := by
  constructor
  · exact fun decoded => (encode_of_decode? decoded).symm
  · rintro rfl
    exact decode?_encode text

theorem encode_inj {first second : String} : encode first = encode second ↔ first = second := by
  rw [← decode?_eq_some_iff, decode?_encode, Option.some.injEq, eq_comm]

theorem encode_append (front back : String) :
    encode (front ++ back) = encode front ++ encode back := by
  simp [encode]

theorem encode_eq_flatMap (text : String) :
    encode text = text.toList.flatMap String.utf8EncodeChar := by
  obtain ⟨chars, rfl⟩ := text.exists_eq_ofList
  simp [encode, List.utf8Encode]

/-- The bytes of a character are the character itself or no ASCII characters. -/
theorem toNat_of_mem_utf8EncodeChar {char : Char} {byte : UInt8}
    (member : byte ∈ String.utf8EncodeChar char) :
    byte.toNat = char.toNat ∨ 128 ≤ byte.toNat := by
  dsimp only [String.utf8EncodeChar] at member
  split at member
  case isTrue ascii =>
    left
    obtain rfl := List.mem_singleton.mp member
    exact UInt8.toNat_ofNat_of_lt' (Nat.lt_of_le_of_lt ascii (by decide))
  case isFalse =>
    right
    -- Every byte is a remainder with the first bit added to it.
    grind [UInt8.toNat_ofNat']

theorem toNat_toUInt8 {char : Char} (ascii : char.toNat < 128) :
    char.toUInt8.toNat = char.toNat := by
  rw [Char.toUInt8, UInt32.toNat_toUInt8]
  exact Nat.mod_eq_of_lt (Nat.lt_trans ascii (by decide))

/-- An ASCII character that is a byte of a text is in the text. -/
theorem mem_toList_of_mem_encode {char : Char} {text : String} (ascii : char.toNat < 128)
    (member : char.toUInt8 ∈ encode text) : char ∈ text.toList := by
  rw [encode_eq_flatMap, List.mem_flatMap] at member
  obtain ⟨other, otherMember, member⟩ := member
  have cases := toNat_of_mem_utf8EncodeChar member
  rw [toNat_toUInt8 ascii] at cases
  have same : char = other := Char.toNat_inj.mp (cases.resolve_right (Nat.not_le.mpr ascii))
  exact same ▸ otherMember

def firstChar? (bytes : Bytes) : Option Char :=
  (bytes.take 4).toByteArray.utf8DecodeChar? 0

/-- Whether the first `length` bytes begin a character that the bytes after them
fail to end.  From the second byte on, a continuation byte fits or none does, so
it is enough to try `0x80`. -/
def truncated (length : Nat) (bytes : Bytes) : Bool :=
  bytes.length ≥ length &&
    (firstChar? (bytes.take length ++ List.replicate (4 - length) 0x80)).isSome

/-- How many bytes, where no character can be read, are replaced together: as
many as begin a character, and at least one. -/
def damage (bytes : Bytes) : Nat :=
  if truncated 3 bytes then 3 else if truncated 2 bytes then 2 else 1

/-- The characters that show some bytes. -/
def displayed : Bytes → List Char
  | [] => []
  | byte :: rest =>
      match firstChar? (byte :: rest) with
      | some char => char :: displayed (rest.drop (char.utf8Size - 1))
      | none => '\uFFFD' :: displayed (rest.drop (damage (byte :: rest) - 1))
termination_by bytes => bytes.length
decreasing_by all_goals simp only [List.length_drop, List.length_cons]; omega

def display (bytes : Bytes) : String := String.ofList (displayed bytes)

/-- The bytes of a character are read as that character, whatever follows them. -/
theorem firstChar?_append (char : Char) (rest : Bytes) :
    firstChar? (String.utf8EncodeChar char ++ rest) = some char := by
  have whole : (String.utf8EncodeChar char).take 4 = String.utf8EncodeChar char := by
    apply List.take_of_length_le
    rw [String.length_utf8EncodeChar]
    exact char.utf8Size_le_four
  rw [firstChar?, List.take_append, whole, List.toByteArray_append,
    ByteArray.utf8DecodeChar?_utf8EncodeChar_append]

theorem displayed_append (char : Char) (rest : Bytes) :
    displayed (String.utf8EncodeChar char ++ rest) = char :: displayed rest := by
  have first := firstChar?_append char rest
  have length := String.length_utf8EncodeChar char
  cases bytes : String.utf8EncodeChar char with
  | nil => exact absurd bytes String.utf8EncodeChar_ne_nil
  | cons byte others =>
      rw [bytes] at first length
      have size : char.utf8Size - 1 = others.length := by
        rw [← length, List.length_cons, Nat.add_sub_cancel]
      rw [List.cons_append] at *
      rw [displayed, first]
      simp only [size, List.drop_left]

/-- A text is shown as it is. -/
@[simp] theorem display_encode (text : String) : display (encode text) = text := by
  have shown (chars : List Char) : displayed (chars.flatMap String.utf8EncodeChar) = chars := by
    induction chars with
    | nil =>
        rw [List.flatMap_nil, displayed.eq_def]
    | cons char chars inductionHypothesis =>
        rw [List.flatMap_cons, displayed_append, inductionHypothesis]
  rw [display, encode_eq_flatMap, shown, String.ofList_toList]

end ImportSuffix.Text
