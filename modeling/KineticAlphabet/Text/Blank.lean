/-!
Blanks and separators: `trim` takes blanks off both ends of a text, `words` keeps what stands
between separators, and a separator between two texts cuts none of their words.
-/
namespace KineticAlphabet.Text

/-- The characters with the Unicode property White_Space. -/
def isBlank (c : Char) : Bool :=
  let n := c.toNat
  (0x9 ≤ n && n ≤ 0xD) || n == 0x20 || n == 0x85 || n == 0xA0 || n == 0x1680 ||
    (0x2000 ≤ n && n ≤ 0x200A) || n == 0x2028 || n == 0x2029 || n == 0x202F || n == 0x205F ||
    n == 0x3000

def trimChars (cs : List Char) : List Char :=
  ((cs.dropWhile isBlank).reverse.dropWhile isBlank).reverse

def trim (s : String) : String := String.ofList (trimChars s.toList)

/-- Small letters for the capitals A to Z; every other character stays. -/
def lower (s : String) : String := String.ofList (s.toList.map Char.toLower)

def upper (s : String) : String := String.ofList (s.toList.map Char.toUpper)

/-- What a name is compared by where blanks around it and the case of its letters do not count. -/
def bare (s : String) : String := lower (trim s)

/-- The pieces of a text between separators that are not empty. -/
def words (isSeparator : Char → Bool) (cs : List Char) : List (List Char) :=
  (cs.splitOnP isSeparator).filter fun w => !w.isEmpty

variable {p : Char → Bool}

@[simp] theorem words_nil : words p [] = [] := rfl

/-- A separator between two texts joins their words. -/
theorem words_append (a : List Char) {c : Char} (h : p c) (b : List Char) :
    words p (a ++ c :: b) = words p a ++ words p b := by
  rw [words, List.splitOnP_append_cons a b h, List.filter_append, words, words]

theorem words_separator {c : Char} (h : p c) (cs : List Char) : words p (c :: cs) = words p cs :=
  words_append [] h cs

end KineticAlphabet.Text
