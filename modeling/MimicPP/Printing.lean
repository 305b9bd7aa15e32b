import Mathlib.Data.List.OfFn
import MimicPP.Delimited

/-!
What `print` makes of a value, and what can be read off it.

The printer is chosen by the type of the value, so the values come with a shape. Floating-point
numbers, single characters and types with a printer of their own are no part of it. The elements
of a `std::vector<bool>` are proxies without a formatter: it is a range of unprintables.
-/

namespace MimicPP.Printing

open MimicPP.Delimited

/-- The character types other than `char`. -/
inductive CharType
  | wchar | char8 | char16 | char32
  deriving DecidableEq, Repr

def stringLiteralPrefix : CharType → String
  | .wchar => "L"
  | .char8 => "u8"
  | .char16 => "u"
  | .char32 => "U"

/-- What decides how a value is printed. -/
inductive Shape
  | boolean
  | integer
  | pointer
  | string
  | wideString (char : CharType)
  | optional (s : Shape)
  | range (s : Shape)
  | tuple (n : ℕ) (elements : Fin n → Shape)
  | unprintable

/-- The values of a shape. A string of another character type is given by its code units. -/
def Shape.Value : Shape → Type
  | .boolean => Bool
  | .integer => ℤ
  | .pointer => BitVec 64
  | .string => String
  | .wideString _ => List ℕ
  | .optional s => Option s.Value
  | .range s => List s.Value
  | .tuple n elements => (i : Fin n) → (elements i).Value
  | .unprintable => ℕ

/-! ### The printers -/

def printBoolean : Bool → String
  | true => "true"
  | false => "false"

def printInteger (z : ℤ) : String := toString z

/-- `{:x}` -/
def hex (n : ℕ) : String := String.ofList (Nat.toDigits 16 n)

/-- `{:0>16x}` -/
def hexPadded (n : ℕ) : String :=
  String.ofList (List.replicate (16 - (Nat.toDigits 16 n).length) '0') ++ hex n

def printPointer (p : BitVec 64) : String := "0x" ++ hexPadded p.toNat

/-- The first element, and then each of the others behind a comma. -/
def printElements : List String → String
  | [] => ""
  | t :: ts => t ++ String.join (ts.map fun t => ", " ++ t)

def printString (t : String) : String := "\"" ++ t ++ "\""

/-- The code units are dumped. -/
def printWideString (char : CharType) (units : List ℕ) : String :=
  stringLiteralPrefix char ++ "\"" ++ printElements (units.map fun u => "0x" ++ hex u) ++ "\""

def printOptional {β : Type} (print : β → String) : Option β → String
  | some v => "\x7b value: " ++ print v ++ " \x7d"
  | none => "nullopt"

/-- Ranges and tuples look the same. -/
def printList (ts : List String) : String := "\x7b " ++ printElements ts ++ " \x7d"

def Shape.print : (s : Shape) → s.Value → String
  | .boolean => printBoolean
  | .integer => printInteger
  | .pointer => printPointer
  | .string => printString
  | .wideString char => printWideString char
  | .optional s => printOptional s.print
  | .range s => fun vs : List s.Value => printList (vs.map s.print)
  | .tuple _ elements => fun vs => printList (List.ofFn fun i => (elements i).print (vs i))
  | .unprintable => fun _ => "\x7b?\x7d"

/-- Nothing in it is unprintable, and no string in it has quotation marks of its own. -/
def Shape.Plain : (s : Shape) → s.Value → Prop
  | .boolean | .integer | .pointer | .wideString _ => fun _ => True
  | .string => fun t : String => '"' ∉ t.toList
  | .optional s => fun o : Option s.Value => ∀ v ∈ o, s.Plain v
  | .range s => fun vs : List s.Value => ∀ v ∈ vs, s.Plain v
  | .tuple _ elements => fun vs => ∀ i, (elements i).Plain (vs i)
  | .unprintable => fun _ => False

example : Shape.print (.range (.optional .integer)) ([some (-7 : ℤ), none] : List (Option ℤ)) =
    "\x7b \x7b value: -7 \x7d, nullopt \x7d" := by decide

/-! ### What the printers write -/

variable {β : Type} {P : β → Prop} {print : β → String}

/-- What satisfies `P` can be read off its text, unless a digit follows. -/
abbrev Legible (P : β → Prop) (print : β → String) : Prop :=
  Readable P (Stops (IsDigit 10)) fun b => (print b).toList

lemma printElements_toList (ts : List String) :
    (printElements ts).toList = separated [',', ' '] String.toList ts := by
  cases ts with
  | nil => rfl
  | cons t ts => simp [printElements, separated, List.flatMap_map]

lemma hexPadded_toList (n : ℕ) : (hexPadded n).toList = padded 16 16 n := by
  simp [hexPadded, hex, padded]

lemma legible_printBoolean : Legible (fun _ => True) printBoolean := by
  rintro (_ | _) (_ | _) r s - - - - heq <;> simp_all [printBoolean]

lemma legible_printInteger : Legible (fun _ => True) printInteger := by
  have hdigits := readable_toDigits (b := 10) (by omega) (by omega)
  rintro (m | m) (n | n) r s - - hr hs heq
  all_goals simp only [printInteger, Int.repr, Int.toString_eq_repr, String.toList_append,
    Nat.toList_repr, Nat.succ_eq_add_one, List.append_assoc] at heq
  · obtain ⟨rfl, hrs⟩ := hdigits m n r s trivial trivial hr hs heq
    exact ⟨rfl, hrs⟩
  · exact absurd heq.symm (cons_ne_toDigits (by omega) (by decide) m _ _)
  · exact absurd heq (cons_ne_toDigits (by omega) (by decide) n _ _)
  · obtain ⟨hmn, hrs⟩ := hdigits (m + 1) (n + 1) r s trivial trivial hr hs
      (List.append_cancel_left heq)
    exact ⟨by rw [Nat.succ.inj hmn], hrs⟩

lemma legible_printPointer : Legible (fun _ => True) printPointer := by
  have hpad := readable_padded (w := 16) (b := 16) (by omega) (by omega) (by omega)
  intro p q r s _ _ _ _ heq
  simp only [printPointer, String.toList_append, hexPadded_toList, List.append_assoc] at heq
  have hlt : ∀ p : BitVec 64, p.toNat < 16 ^ 16 := fun p => p.isLt
  obtain ⟨hpq, hrs⟩ := hpad p.toNat q.toNat r s (hlt p) (hlt q) trivial trivial
    (List.append_cancel_left heq)
  exact ⟨BitVec.eq_of_toNat_eq hpq, hrs⟩

lemma legible_printString : Legible (fun t => '"' ∉ t.toList) printString := by
  have hquoted := ((readable_terminated '"').literal ['"']).comap (f := String.toList)
    fun _ _ _ _ => String.toList_inj.mp
  refine (hquoted.mono (fun _ h => h) fun _ _ => trivial).congr fun t => ?_
  simp [printString]

lemma legible_printWideString (char : CharType) :
    Legible (fun _ => True) (printWideString char) := by
  have hunit : Readable (fun _ => True) (Stops (IsDigit 16)) fun u => ['0', 'x'] ++
      Nat.toDigits 16 u := (readable_toDigits (by omega) (by omega)).literal _
  have hunits := hunit.separated [',', ' '] ['"'] (fun r => by simp; decide)
    (fun r => by simp; decide) (by simp) (by simp)
  have hall : Readable (fun _ => True) (Stops (IsDigit 10)) _ :=
    (hunits.literal ((stringLiteralPrefix char).toList ++ ['"'])).mono
      (fun _ _ _ _ => trivial) fun _ _ => trivial
  refine hall.congr fun us => ?_
  simp [printWideString, printElements_toList, hex, separated_map]

lemma legible_printOptional (h : Legible P print) (hstop : ∀ r, Stops (IsDigit 10) (' ' :: r)) :
    Legible (fun o => ∀ b ∈ o, P b) (printOptional print) := by
  have hsome : Readable P (Stops (IsDigit 10)) fun b =>
      "\x7b value: ".toList ++ ((print b).toList ++ [' ', '\x7d']) :=
    (h.close _ fun _ _ => hstop _).literal _
  rintro (_ | a) (_ | b) r s ha hb hr hs heq
  · exact ⟨rfl, List.append_cancel_left heq⟩
  · simp [printOptional] at heq
  · simp [printOptional] at heq
  · obtain ⟨rfl, hrs⟩ := hsome a b r s (ha a rfl) (hb b rfl) hr hs
      (by simpa [printOptional] using heq)
    exact ⟨rfl, hrs⟩

/-- No text begins with a space. -/
lemma print_head (s : Shape) (v : s.Value) : ∃ c t, (s.print v).toList = c :: t ∧ c ≠ ' ' := by
  cases s with
  | boolean => rcases (v : Bool) with _ | _ <;> simp [Shape.print, printBoolean]
  | integer =>
    rcases (v : ℤ) with m | m
    · have hdigits : (Shape.integer.print (Int.ofNat m)).toList = Nat.toDigits 10 m := by
        simp [Shape.print, printInteger, Int.repr]
      obtain ⟨c, t, hc, hm⟩ := toDigits_eq_cons (b := 10) (by omega) m
      refine ⟨c, t, hdigits.trans hm, ?_⟩
      rintro rfl
      revert hc
      decide
    · simp [Shape.print, printInteger, Int.repr]
  | pointer => simp [Shape.print, printPointer]
  | string =>
    have hfront : ∀ t : String, (printString t).toList = '"' :: (t.toList ++ ['"']) := by
      simp [printString]
    exact ⟨_, _, hfront v, by decide⟩
  | wideString char => cases char <;> simp [Shape.print, printWideString, stringLiteralPrefix]
  | optional s => rcases (v : Option s.Value) with _ | v <;> simp [Shape.print, printOptional]
  | range s => simp [Shape.print, printList]
  | tuple n elements => simp [Shape.print, printList]
  | unprintable => simp [Shape.print]

/-- Whatever the shape, the parts of a value can be told apart in its text. -/
theorem legible_print (s : Shape) : Legible s.Plain s.print := by
  have hstop : ∀ c ∈ [' ', ','], ∀ r, Stops (IsDigit 10) (c :: r) := by
    simp only [List.forall_mem_cons, stops_cons]
    exact ⟨fun _ => by decide, fun _ => by decide, by simp⟩
  induction s with
  | boolean => exact legible_printBoolean
  | integer => exact legible_printInteger
  | pointer => exact legible_printPointer
  | string => exact legible_printString
  | wideString char => exact legible_printWideString char
  | optional s ih => exact legible_printOptional ih (hstop ' ' (by simp))
  | range s ih =>
    have hall := ih.separated [',', ' '] [' ', '\x7d'] (fun r => hstop ',' (by simp) _)
      (fun r => hstop ' ' (by simp) _) (by simp) ?_
    · refine ((hall.literal ['\x7b', ' ']).mono (fun _ h => h) fun _ _ =>
        trivial).congr fun vs => ?_
      simp [Shape.print, printList, printElements_toList, separated_map]
    · intro v r t _ heq
      obtain ⟨c, cs, hc, hne⟩ := print_head s v
      rw [hc] at heq
      exact hne (List.cons.inj heq).1
  | tuple n elements ih =>
    have hall := readable_tuple [',', ' '] [' ', '\x7d'] (fun r => hstop ',' (by simp) _)
      (fun r => hstop ' ' (by simp) _) ih
    refine ((hall.literal ['\x7b', ' ']).mono (fun _ h => h) fun _ _ =>
      trivial).congr fun vs => ?_
    have hmap := separated_map (p := fun l => l) [',', ' '] String.toList
      (List.ofFn fun i => (elements i).print (vs i))
    simp only [List.map_ofFn, Function.comp_def] at hmap
    simp [Shape.print, printList, printElements_toList, hmap]
  | unprintable => exact fun _ _ _ _ h => absurd h id

/-- **A text says what was printed**: two values of one shape, as the arguments for a parameter
are, with the same text are the same, unless something in them is unprintable or has quotation
marks of its own. -/
theorem print_injective (s : Shape) {v v' : s.Value} (h : s.Plain v) (h' : s.Plain v')
    (heq : s.print v = s.print v') : v = v' :=
  (legible_print s).injective (by simp) h h' (congrArg String.toList heq)

/-- The comma inside of a string is told from the one between two strings. -/
theorem print_injective_strings :
    (Shape.range .string).print (["a, b", "c"] : List String) ≠
      (Shape.range .string).print (["a", "b, c"] : List String) := by
  have hplain : ∀ vs : List String, (∀ v ∈ vs, '"' ∉ v.toList) → (Shape.range .string).Plain vs :=
    fun _ h => h
  intro heq
  have hvalues : ["a, b", "c"] = ["a", "b, c"] := print_injective (.range .string)
    (hplain ["a, b", "c"] (by simp)) (hplain ["a", "b, c"] (by simp)) heq
  simp at hvalues

/-- Quotation marks inside of strings are not escaped, so one string may look like two. -/
example : (Shape.range .string).print (["a\", \"b"] : List String) =
    (Shape.range .string).print (["a", "b"] : List String) := by decide

end MimicPP.Printing
