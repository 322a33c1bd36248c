/-!
# Texts

A text is a list of code points.  Most code points are characters.  The surrogates are not: they have no bytes, so a
text that holds one cannot be encoded.  Such texts come up all the same, since an escape sequence can name every code
point, and since the bytes of an argument that is not encoded well are passed on as surrogates.
-/

namespace ErlangMacros

/-- A code point: a character, or a surrogate. -/
inductive CodePoint where
  | char (c : Char)
  | surrogate (n : Fin 0x800)
deriving DecidableEq, Inhabited

namespace CodePoint

instance : Coe Char CodePoint := ⟨char⟩

/-- The number of a code point. -/
def toNat : CodePoint → Nat
  | char c => c.toNat
  | surrogate n => 0xD800 + n

/-- The code point with a number, which is at most `0x10FFFF`. -/
def ofNat (n : Nat) : CodePoint :=
  if 0xD800 ≤ n ∧ n < 0xE000 then surrogate (Fin.ofNat 0x800 (n - 0xD800)) else char (Char.ofNat n)

/-- The character that a code point is. -/
def char? : CodePoint → Option Char
  | char c => some c
  | surrogate _ => none

/-- Code points that are characters. -/
def isChar (c : CodePoint) : Bool :=
  c.char?.isSome

/-- The ASCII digits. -/
def isDigit (c : CodePoint) : Bool :=
  '0'.toNat ≤ c.toNat && c.toNat ≤ '9'.toNat

/-- The lower case ASCII letters. -/
def isLower (c : CodePoint) : Bool :=
  'a'.toNat ≤ c.toNat && c.toNat ≤ 'z'.toNat

/-- The upper case ASCII letters. -/
def isUpper (c : CodePoint) : Bool :=
  'A'.toNat ≤ c.toNat && c.toNat ≤ 'Z'.toNat

/-- The ASCII letters and digits. -/
def isAlphanum (c : CodePoint) : Bool :=
  c.isLower || c.isUpper || c.isDigit

/-- Code points are ordered by their numbers. -/
instance : LE CodePoint := ⟨fun a b => a.toNat ≤ b.toNat⟩

instance (a b : CodePoint) : Decidable (a ≤ b) :=
  inferInstanceAs (Decidable (a.toNat ≤ b.toNat))

@[simp]
theorem toNat_char (c : Char) : (char c).toNat = c.toNat := rfl

@[simp]
theorem isChar_char (c : Char) : (char c).isChar = true := rfl

@[simp]
theorem isChar_surrogate (n : Fin 0x800) : (surrogate n).isChar = false := rfl

theorem isChar_iff {c : CodePoint} : c.isChar = true ↔ ∃ d, c = char d := by
  cases c <;> simp

theorem isChar_eq_false_iff {c : CodePoint} : c.isChar = false ↔ ∃ n, c = surrogate n := by
  cases c <;> simp

/-- The number of a character is outside the surrogates. -/
theorem toNat_char_lt (c : Char) : c.toNat < 0xD800 ∨ 0xE000 ≤ c.toNat := by
  rcases c.valid with h | ⟨h, -⟩
  · exact .inl h
  · exact .inr h

theorem toNat_inj {a b : CodePoint} : a.toNat = b.toNat ↔ a = b := by
  constructor
  · intro h
    cases a with
    | char c =>
      cases b with
      | char d => exact congrArg char (Char.toNat_inj.1 h)
      | surrogate n =>
        have := toNat_char_lt c
        simp only [toNat] at h
        omega
    | surrogate m =>
      cases b with
      | char d =>
        have := toNat_char_lt d
        simp only [toNat] at h
        omega
      | surrogate n =>
        simp only [toNat] at h
        exact congrArg surrogate (Fin.ext (by omega))
  · exact congrArg toNat

theorem toNat_ofNat {n : Nat} (h : n ≤ 0x10FFFF) : (ofNat n).toNat = n := by
  unfold ofNat
  split
  · next hn =>
    have : n - 0xD800 < 0x800 := by omega
    simp only [toNat, Fin.ofNat, Nat.mod_eq_of_lt this]
    omega
  · next hn =>
    have hvalid : n.isValidChar := by
      unfold Nat.isValidChar
      omega
    rw [toNat_char, Char.ofNat, dif_pos hvalid]
    rfl

/-- Every code point is the one with its number. -/
theorem ofNat_toNat (c : CodePoint) : ofNat c.toNat = c := by
  refine toNat_inj.1 (toNat_ofNat ?_)
  cases c with
  | char c =>
    rcases c.valid with h | ⟨-, h⟩
    · exact Nat.le_trans (Nat.le_of_lt h) (by decide)
    · exact Nat.le_of_lt_succ h
  | surrogate n =>
    simp only [toNat]
    omega

/-- An ASCII code point is a character. -/
theorem isChar_of_lt {c : CodePoint} (h : c.toNat < 128) : c.isChar = true := by
  cases c with
  | char c => rfl
  | surrogate n =>
    simp only [toNat] at h
    omega

end CodePoint

/-- A text. -/
structure Text where
  ofList ::
  toList : List CodePoint
deriving DecidableEq, Inhabited

namespace Text

/-- The text of a string, all of whose code points are characters. -/
@[coe]
def ofString (s : String) : Text :=
  ofList (s.toList.map .char)

instance : Coe String Text := ⟨ofString⟩

instance : Append Text := ⟨fun a b => ofList (a.toList ++ b.toList)⟩

/-- The decimal digits of an integer, with its sign. -/
def ofInt (n : Int) : Text :=
  ofString (toString n)

/-- The number of code points. -/
def length (t : Text) : Nat :=
  t.toList.length

/-- There are no code points. -/
def isEmpty (t : Text) : Bool :=
  t.toList.isEmpty

/-- Texts one after the other. -/
def join (ts : List Text) : Text :=
  ofList (ts.flatMap toList)

/-- Texts one after the other, with `separator` in between. -/
def intercalate (separator : Text) (ts : List Text) : Text :=
  ofList (separator.toList.intercalate (ts.map toList))

/-- The characters among code points. -/
def chars (cs : List CodePoint) : List Char :=
  cs.filterMap CodePoint.char?

/-- The text holds no surrogate, so that it can be encoded. -/
def isEncodable (t : Text) : Bool :=
  t.toList.all CodePoint.isChar

/-- The characters of a text, as a string. -/
def string (t : Text) : String :=
  String.ofList (chars t.toList)

/-- The bytes that encode the characters of a text. -/
def utf8ByteSize (t : Text) : Nat :=
  t.string.utf8ByteSize

/-- Texts are ordered by the numbers of their code points. -/
instance : LT Text := ⟨fun a b => a.toList.map CodePoint.toNat < b.toList.map CodePoint.toNat⟩

instance (a b : Text) : Decidable (a < b) :=
  inferInstanceAs (Decidable (a.toList.map CodePoint.toNat < b.toList.map CodePoint.toNat))

instance : LE Text := ⟨fun a b => ¬ b < a⟩

instance (a b : Text) : Decidable (a ≤ b) :=
  inferInstanceAs (Decidable (¬ b < a))

theorem toList_inj {a b : Text} : a.toList = b.toList ↔ a = b := by
  cases a
  cases b
  simp

@[simp]
theorem toList_ofString (s : String) : (ofString s).toList = s.toList.map .char := rfl

@[simp]
theorem length_toList {t : Text} : t.toList.length = t.length := rfl

theorem le_iff_lt_or_eq {a b : Text} : a ≤ b ↔ a < b ∨ a = b := by
  have hcodes : a.toList.map CodePoint.toNat = b.toList.map CodePoint.toNat ↔ a = b :=
    (List.map_inj_right fun _ _ h => CodePoint.toNat_inj.1 h).trans toList_inj
  have hnumbers : ∀ m n : List Nat, ¬ n < m ↔ m < n ∨ m = n := fun _ _ => List.not_lt.trans List.le_iff_lt_or_eq
  rw [← hcodes]
  exact hnumbers _ _

@[simp]
theorem empty_append (t : Text) : "" ++ t = t := rfl

@[simp]
theorem toList_append (a b : Text) : (a ++ b).toList = a.toList ++ b.toList := rfl

theorem ofList_append (cs ds : List CodePoint) : ofList (cs ++ ds) = ofList cs ++ ofList ds := rfl

@[simp]
theorem ofList_nil : ofList [] = "" := rfl

@[simp]
theorem ofList_toList (t : Text) : ofList t.toList = t := rfl

@[simp]
theorem toList_intercalate (separator : Text) (ts : List Text) :
    (intercalate separator ts).toList = separator.toList.intercalate (ts.map toList) := rfl

@[simp]
theorem intercalate_singleton (separator t : Text) : intercalate separator [t] = t :=
  toList_inj.1 (List.append_nil t.toList)

theorem intercalate_cons_cons (separator t u : Text) (ts : List Text) :
    intercalate separator (t :: u :: ts) = t ++ separator ++ intercalate separator (u :: ts) :=
  toList_inj.1 (List.append_assoc t.toList separator.toList _).symm

@[simp]
theorem toList_join (ts : List Text) : (join ts).toList = ts.flatMap toList := rfl

@[simp]
theorem toList_eq_nil_iff {t : Text} : t.toList = [] ↔ t = "" :=
  toList_inj (b := "")

@[simp]
theorem append_eq_empty_iff {a b : Text} : a ++ b = "" ↔ a = "" ∧ b = "" := by
  rw [← toList_eq_nil_iff, toList_append, List.append_eq_nil_iff, toList_eq_nil_iff, toList_eq_nil_iff]

@[simp]
theorem chars_nil : chars [] = [] := rfl

@[simp]
theorem chars_char (c : Char) (cs : List CodePoint) : chars (.char c :: cs) = c :: chars cs := rfl

@[simp]
theorem chars_surrogate (n : Fin 0x800) (cs : List CodePoint) : chars (.surrogate n :: cs) = chars cs := rfl

@[simp]
theorem chars_append (cs ds : List CodePoint) : chars (cs ++ ds) = chars cs ++ chars ds :=
  List.filterMap_append

@[simp]
theorem chars_map_char (cs : List Char) : chars (cs.map .char) = cs := by
  induction cs with
  | nil => rfl
  | cons c cs ih => rw [List.map_cons, chars_char, ih]

/-- A string is given by its text. -/
@[simp]
theorem ofString_inj {s s' : String} : ofString s = ofString s' ↔ s = s' := by
  rw [← toList_inj, toList_ofString, toList_ofString]
  constructor
  · intro h
    exact String.toList_inj.1 ((List.map_inj_right fun _ _ h => CodePoint.char.inj h).1 h)
  · intro h
    rw [h]

end Text

/-- The code point as a text. -/
def CodePoint.toText (c : CodePoint) : Text :=
  .ofList [c]

end ErlangMacros
