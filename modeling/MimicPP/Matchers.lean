import Mathlib.Data.List.Permutation
import MimicPP.Arguments
import MimicPP.Printing

/-!
The matchers for values and ranges, and what their descriptions say.

A matcher carries two format strings, and `operator!` swaps them, so an inverted matcher is
described the way another matcher may be described that was not inverted. What a target is
compared with is of the target's own type: `lt(1)` and `lt(1u)` are described alike, and differ
on an `int` of -1.
-/

namespace MimicPP.Matchers

open MimicPP.Expectation MimicPP.Delimited MimicPP.Printing MimicPP.Arguments

/-- The placeholders are filled from left to right. The format strings have no other braces. -/
def vformatChars : List Char → List String → List Char
  | '\x7b' :: '\x7d' :: cs, arg :: args => arg.toList ++ vformatChars cs args
  | c :: cs, args => c :: vformatChars cs args
  | [], _ => []

/-- `format::vformat` -/
def vformat (fmt : String) (args : List String) : String :=
  String.ofList (vformatChars fmt.toList args)

/-- `PredicateMatcher`. The additional arguments are bound in the predicate, and listed as they
are described. -/
structure PredicateMatcher (Target : Type) where
  predicate : Target → Bool
  formatString : String
  invertedFormatString : String
  additionalArgs : List String

namespace PredicateMatcher

variable {Target : Type}

def describe (m : PredicateMatcher Target) : String := vformat m.formatString m.additionalArgs

/-- `operator!` -/
def inverted (m : PredicateMatcher Target) : PredicateMatcher Target where
  predicate target := !m.predicate target
  formatString := m.invertedFormatString
  invertedFormatString := m.formatString
  additionalArgs := m.additionalArgs

end PredicateMatcher

/-! ### Matchers for values -/

inductive Relation
  | equalTo | notEqualTo | less | lessEqual | greater | greaterEqual
  deriving DecidableEq, Repr

/-- The comparison operators of all types. -/
abbrev Operators := (s : Shape) → Relation → s.Value → s.Value → Bool

section values

variable (ops : Operators) {s : Shape}

/-- The target is compared to a value. -/
def comparison (r : Relation) (fmt invertedFmt : String) (value : s.Value) :
    PredicateMatcher s.Value :=
  ⟨fun target => ops s r target value, fmt, invertedFmt, [s.print value]⟩

def eq (value : s.Value) := comparison ops .equalTo "== \x7b\x7d" "!= \x7b\x7d" value

def ne (value : s.Value) := comparison ops .notEqualTo "!= \x7b\x7d" "== \x7b\x7d" value

def lt (value : s.Value) := comparison ops .less "< \x7b\x7d" ">= \x7b\x7d" value

def le (value : s.Value) := comparison ops .lessEqual "<= \x7b\x7d" "> \x7b\x7d" value

def gt (value : s.Value) := comparison ops .greater "> \x7b\x7d" "<= \x7b\x7d" value

def ge (value : s.Value) := comparison ops .greaterEqual ">= \x7b\x7d" "< \x7b\x7d" value

end values

/-- `WildcardMatcher`, which has no `operator!`. -/
def wildcard {Target : Type} : PredicateMatcher Target :=
  ⟨fun _ => true, "has no constraints", "has no constraints", []⟩

/-! ### Matchers for ranges -/

section ranges

variable {α : Type}

/-- `std::ranges::equal` -/
def equal (comp : α → α → Bool) : List α → List α → Bool
  | [], [] => true
  | x :: xs, y :: ys => comp x y && equal comp xs ys
  | _, _ => false

/-- `std::ranges::is_permutation` -/
def isPermutation (comp : α → α → Bool) (target expected : List α) : Bool :=
  expected.permutations'.any fun es => equal comp target es

/-- `std::ranges::is_sorted` -/
def isSorted (rel : α → α → Bool) : List α → Bool
  | x :: y :: rest => !rel y x && isSorted rel (y :: rest)
  | _ => true

namespace range

variable (ops : Operators) {s : Shape}

/-- `range::eq`, with the default comparator. -/
def eq (expected : List s.Value) : PredicateMatcher (List s.Value) :=
  ⟨fun target => equal (ops s .equalTo) target expected, "elements are \x7b\x7d",
    "elements are not \x7b\x7d", [(Shape.range s).print expected]⟩

/-- `range::unordered_eq`, with the default comparator. -/
def unorderedEq (expected : List s.Value) : PredicateMatcher (List s.Value) :=
  ⟨fun target => isPermutation (ops s .equalTo) target expected, "is a permutation of \x7b\x7d",
    "is not a permutation of \x7b\x7d", [(Shape.range s).print expected]⟩

/-- `range::is_sorted`, with the default relation. -/
def isSorted : PredicateMatcher (List s.Value) :=
  ⟨Matchers.isSorted (ops s .less), "is a sorted range", "is an unsorted range", []⟩

/-- `range::is_empty` -/
def isEmpty : PredicateMatcher (List α) :=
  ⟨List.isEmpty, "is an empty range", "is not an empty range", []⟩

/-- `range::has_size`; the sizes are compared as numbers. -/
def hasSize (expected : ℤ) : PredicateMatcher (List α) :=
  ⟨fun target => decide (expected = target.length), "has size of \x7b\x7d",
    "has different size than \x7b\x7d", [printInteger expected]⟩

/-- `range::each_element` -/
def eachElement (m : PredicateMatcher α) : PredicateMatcher (List α) :=
  ⟨fun target => target.all m.predicate, "each el in range: el \x7b\x7d",
    "not each el in range: el \x7b\x7d", [m.describe]⟩

/-- `range::any_element` -/
def anyElement (m : PredicateMatcher α) : PredicateMatcher (List α) :=
  ⟨fun target => target.any m.predicate, "any el in range: el \x7b\x7d",
    "none el in range: el \x7b\x7d", [m.describe]⟩

end range

end ranges

/-! ### Expressions -/

/-- What can be put together from these matchers, with values and elements of the target's own
type; the flag tells whether there is an `operator!`. -/
inductive Expr : Bool → Shape → Type
  | wildcard {s : Shape} : Expr false s
  | comparison {s : Shape} (r : Relation) (value : s.Value) : Expr true s
  | rangeEq {s : Shape} (expected : List s.Value) : Expr true (.range s)
  | unorderedEq {s : Shape} (expected : List s.Value) : Expr true (.range s)
  | isSorted {s : Shape} : Expr true (.range s)
  | isEmpty {s : Shape} : Expr true (.range s)
  | hasSize {s : Shape} (expected : ℤ) : Expr true (.range s)
  | eachElement {b : Bool} {s : Shape} (m : Expr b s) : Expr true (.range s)
  | anyElement {b : Bool} {s : Shape} (m : Expr b s) : Expr true (.range s)
  | not {s : Shape} (m : Expr true s) : Expr true s

variable (ops : Operators) {b b' : Bool} {s : Shape}

def ofRelation : Relation → s.Value → PredicateMatcher s.Value
  | .equalTo => eq ops
  | .notEqualTo => ne ops
  | .less => lt ops
  | .lessEqual => le ops
  | .greater => gt ops
  | .greaterEqual => ge ops

def Expr.matcher : {b : Bool} → {s : Shape} → Expr b s → PredicateMatcher s.Value
  | _, _, .wildcard => Matchers.wildcard
  | _, _, .comparison r value => ofRelation ops r value
  | _, _, .rangeEq expected => range.eq ops expected
  | _, _, .unorderedEq expected => range.unorderedEq ops expected
  | _, .range s, .isSorted => range.isSorted (s := s) ops
  | _, .range s, .isEmpty => range.isEmpty (α := s.Value)
  | _, .range s, .hasSize expected => range.hasSize (α := s.Value) expected
  | _, _, .eachElement m => range.eachElement m.matcher
  | _, _, .anyElement m => range.anyElement m.matcher
  | _, _, .not m => m.matcher.inverted

/-- The values it compares to are plain. -/
def Expr.Plain : {b : Bool} → {s : Shape} → Expr b s → Prop
  | _, s, .comparison _ value => s.Plain value
  | _, .range s, .rangeEq expected => (Shape.range s).Plain expected
  | _, .range s, .unorderedEq expected => (Shape.range s).Plain expected
  | _, _, .eachElement m => m.Plain
  | _, _, .anyElement m => m.Plain
  | _, _, .not m => m.Plain
  | _, _, _ => True

def Relation.opposite : Relation → Relation
  | .equalTo => .notEqualTo
  | .notEqualTo => .equalTo
  | .less => .greaterEqual
  | .lessEqual => .greater
  | .greater => .lessEqual
  | .greaterEqual => .less

/-- The operators come in pairs of which one says the opposite of the other, at least where the
value on the right is plain. -/
def Complementary : Prop :=
  ∀ (s : Shape) (r : Relation) (target value : s.Value), s.Plain value →
    ops s r.opposite target value = !ops s r target value

/-! ### What is described -/

/-- What an expression says, once all inversions are carried out. -/
inductive Sense : Shape → Type
  | wildcard {s : Shape} : Sense s
  | compare {s : Shape} (r : Relation) (value : s.Value) : Sense s
  | elements {s : Shape} (positive : Bool) (expected : List s.Value) : Sense (.range s)
  | permutation {s : Shape} (positive : Bool) (expected : List s.Value) : Sense (.range s)
  | sorted {s : Shape} (positive : Bool) : Sense (.range s)
  | empty {s : Shape} (positive : Bool) : Sense (.range s)
  | size {s : Shape} (positive : Bool) (expected : ℤ) : Sense (.range s)
  | each {s : Shape} (positive : Bool) (m : Sense s) : Sense (.range s)
  | any {s : Shape} (positive : Bool) (m : Sense s) : Sense (.range s)

namespace Sense

def flip : {s : Shape} → Sense s → Sense s
  | _, .wildcard => .wildcard
  | _, .compare r value => .compare r.opposite value
  | _, .elements positive expected => .elements (!positive) expected
  | _, .permutation positive expected => .permutation (!positive) expected
  | _, .sorted positive => .sorted (!positive)
  | _, .empty positive => .empty (!positive)
  | _, .size positive expected => .size (!positive) expected
  | _, .each positive m => .each (!positive) m
  | _, .any positive m => .any (!positive) m

/-- The targets that are accepted. -/
def holds : {s : Shape} → Sense s → s.Value → Bool
  | _, .wildcard => fun _ => true
  | s, .compare r value => fun target => ops s r target value
  | .range s, .elements positive expected => fun target : List s.Value =>
    equal (ops s .equalTo) target expected == positive
  | .range s, .permutation positive expected => fun target : List s.Value =>
    isPermutation (ops s .equalTo) target expected == positive
  | .range s, .sorted positive => fun target : List s.Value =>
    Matchers.isSorted (ops s .less) target == positive
  | .range s, .empty positive => fun target : List s.Value => target.isEmpty == positive
  | .range s, .size positive expected => fun target : List s.Value =>
    decide (expected = target.length) == positive
  | .range s, .each positive m => fun target : List s.Value => target.all m.holds == positive
  | .range s, .any positive m => fun target : List s.Value => target.any m.holds == positive

def Plain : {s : Shape} → Sense s → Prop
  | s, .compare _ value => s.Plain value
  | .range s, .elements _ expected => (Shape.range s).Plain expected
  | .range s, .permutation _ expected => (Shape.range s).Plain expected
  | _, .each _ m => m.Plain
  | _, .any _ m => m.Plain
  | _, _ => True

end Sense

/-- What a description begins with. -/
inductive Head
  | wildcard
  | compare (r : Relation)
  | elements (positive : Bool)
  | permutation (positive : Bool)
  | sorted (positive : Bool)
  | empty (positive : Bool)
  | size (positive : Bool)
  | each (positive : Bool)
  | any (positive : Bool)
  deriving DecidableEq

def Head.text : Head → String
  | .wildcard => "has no constraints"
  | .compare .equalTo => "== "
  | .compare .notEqualTo => "!= "
  | .compare .less => "< "
  | .compare .lessEqual => "<= "
  | .compare .greater => "> "
  | .compare .greaterEqual => ">= "
  | .elements true => "elements are "
  | .elements false => "elements are not "
  | .permutation true => "is a permutation of "
  | .permutation false => "is not a permutation of "
  | .sorted true => "is a sorted range"
  | .sorted false => "is an unsorted range"
  | .empty true => "is an empty range"
  | .empty false => "is not an empty range"
  | .size true => "has size of "
  | .size false => "has different size than "
  | .each true => "each el in range: el "
  | .each false => "not each el in range: el "
  | .any true => "any el in range: el "
  | .any false => "none el in range: el "

def Head.all : List Head :=
  [.wildcard, .compare .equalTo, .compare .notEqualTo, .compare .less, .compare .lessEqual,
    .compare .greater, .compare .greaterEqual, .elements true, .elements false,
    .permutation true, .permutation false, .sorted true, .sorted false, .empty true,
    .empty false, .size true, .size false, .each true, .each false, .any true, .any false]

lemma Head.mem_all (h : Head) : h ∈ Head.all := by
  cases h with
  | wildcard => decide
  | compare r => cases r <;> decide
  | _ positive => cases positive <;> decide

/-- No text begins like another one, but for one pair. -/
lemma Head.eq_of_prefix : ∀ h ∈ Head.all, ∀ h' ∈ Head.all,
    h.text.toList <+: h'.text.toList → h = h' ∨ (h = .elements true ∧ h' = .elements false) := by
  decide

namespace Sense

def head : {s : Shape} → Sense s → Head
  | _, .wildcard => .wildcard
  | _, .compare r _ => .compare r
  | _, .elements positive _ => .elements positive
  | _, .permutation positive _ => .permutation positive
  | _, .sorted positive => .sorted positive
  | _, .empty positive => .empty positive
  | _, .size positive _ => .size positive
  | _, .each positive _ => .each positive
  | _, .any positive _ => .any positive

/-- What a description goes on with. -/
def rest : {s : Shape} → Sense s → String
  | s, .compare _ value => s.print value
  | .range s, .elements _ expected => (Shape.range s).print expected
  | .range s, .permutation _ expected => (Shape.range s).print expected
  | _, .size _ expected => printInteger expected
  | _, .each _ m => m.head.text ++ m.rest
  | _, .any _ m => m.head.text ++ m.rest
  | _, _ => ""

def text (m : Sense s) : String := m.head.text ++ m.rest

/-- The elements of a range are printed in braces. -/
lemma rest_of_elements {m : Sense s} {positive : Bool} (h : m.head = .elements positive) :
    ∃ t, m.rest.toList = '\x7b' :: t := by
  cases m with
  | elements _ expected => exact ⟨_, by simp [rest, Shape.print, printList]; rfl⟩
  | _ => cases h

/-- The beginning of a description can be told from what it goes on with. -/
lemma head_and_rest {m m' : Sense s} (h : m.text = m'.text) :
    m.head = m'.head ∧ m.rest = m'.rest := by
  have hchars := congrArg String.toList h
  rw [text, text, String.toList_append, String.toList_append] at hchars
  have hhead : m.head = m'.head := by
    rcases List.prefix_or_prefix_of_prefix (List.prefix_append _ _)
      (hchars ▸ List.prefix_append _ m'.rest.toList) with hpre | hpre
    · rcases Head.eq_of_prefix _ (Head.mem_all _) _ (Head.mem_all _) hpre with heq | ⟨hl, hr⟩
      · exact heq
      · obtain ⟨t, ht⟩ := rest_of_elements hl
        rw [hl, hr, ht] at hchars
        simp [Head.text] at hchars
    · rcases Head.eq_of_prefix _ (Head.mem_all _) _ (Head.mem_all _) hpre with heq | ⟨hl, hr⟩
      · exact heq.symm
      · obtain ⟨t, ht⟩ := rest_of_elements hl
        rw [hl, hr, ht] at hchars
        simp [Head.text] at hchars
  rw [hhead] at hchars
  exact ⟨hhead, String.toList_inj.mp (List.append_cancel_left hchars)⟩

/-- Every description belongs to one sense only. -/
theorem text_injective {m m' : Sense s} (hm : m.Plain) (hm' : m'.Plain) (h : m.text = m'.text) :
    m = m' := by
  have hprint : ∀ (s : Shape) (v v' : s.Value), s.Plain v → s.Plain v' →
      s.print v = s.print v' → v = v' := fun s v v' hv hv' heq =>
    (legible_print s).injective (by simp) hv hv' (congrArg String.toList heq)
  obtain ⟨hhead, hrest⟩ := head_and_rest h
  induction m with
  | wildcard =>
    cases m' with
    | wildcard => rfl
    | _ => cases hhead
  | compare r value =>
    cases m' with
    | compare r' value' =>
      obtain rfl : r = r' := Head.compare.inj hhead
      rw [hprint _ value value' hm hm' hrest]
    | _ => cases hhead
  | elements positive expected =>
    cases m' with
    | elements positive' expected' =>
      obtain rfl : positive = positive' := Head.elements.inj hhead
      exact congrArg (Sense.elements positive) (hprint (.range _) expected expected' hm hm' hrest)
    | _ => cases hhead
  | permutation positive expected =>
    cases m' with
    | permutation positive' expected' =>
      obtain rfl : positive = positive' := Head.permutation.inj hhead
      exact congrArg (Sense.permutation positive)
        (hprint (.range _) expected expected' hm hm' hrest)
    | _ => cases hhead
  | sorted positive =>
    cases m' with
    | sorted positive' => rw [Head.sorted.inj hhead]
    | _ => cases hhead
  | empty positive =>
    cases m' with
    | empty positive' => rw [Head.empty.inj hhead]
    | _ => cases hhead
  | size positive expected =>
    cases m' with
    | size positive' expected' =>
      obtain rfl : positive = positive' := Head.size.inj hhead
      rw [legible_printInteger.injective (by simp) trivial trivial (congrArg String.toList hrest)]
    | _ => cases hhead
  | each positive m ih =>
    cases m' with
    | each positive' m' =>
      obtain rfl : positive = positive' := Head.each.inj hhead
      have htext : m.text = m'.text := hrest
      rw [ih hm hm' htext (head_and_rest htext).1 (head_and_rest htext).2]
    | _ => cases hhead
  | any positive m ih =>
    cases m' with
    | any positive' m' =>
      obtain rfl : positive = positive' := Head.any.inj hhead
      have htext : m.text = m'.text := hrest
      rw [ih hm hm' htext (head_and_rest htext).1 (head_and_rest htext).2]
    | _ => cases hhead

end Sense

/-! ### The sense of an expression -/

def Expr.sense : {b : Bool} → {s : Shape} → Expr b s → Sense s
  | _, _, .wildcard => .wildcard
  | _, _, .comparison r value => .compare r value
  | _, _, .rangeEq expected => .elements true expected
  | _, _, .unorderedEq expected => .permutation true expected
  | _, _, .isSorted => .sorted true
  | _, _, .isEmpty => .empty true
  | _, _, .hasSize expected => .size true expected
  | _, _, .eachElement m => .each true m.sense
  | _, _, .anyElement m => .any true m.sense
  | _, _, .not m => m.sense.flip

/-! ### Format strings -/

lemma vformatChars_append {l : List Char} (h : '\x7b' ∉ l) (cs : List Char)
    (args : List String) : vformatChars (l ++ cs) args = l ++ vformatChars cs args := by
  induction l with
  | nil => rfl
  | cons c l ih =>
    obtain ⟨hc, hl⟩ := not_or.mp (mt List.mem_cons.mpr h)
    rw [List.cons_append, vformatChars, ih hl, List.cons_append]
    exact fun _ _ _ _ hbrace _ => hc hbrace.symm

lemma Head.no_brace : ∀ h ∈ Head.all, '\x7b' ∉ h.text.toList := by decide

/-- A format string with a placeholder at its end. -/
lemma filled (h : Head) (arg : String) :
    vformat (h.text ++ "\x7b\x7d") [arg] = h.text ++ arg := by
  rw [← String.toList_inj, vformat, String.toList_ofList, String.toList_append,
    vformatChars_append (Head.no_brace h (Head.mem_all h)), String.toList_append]
  simp [vformatChars]

/-- A format string without placeholders. -/
lemma unfilled (h : Head) : vformat h.text [] = h.text ++ "" := by
  have hchars := vformatChars_append (Head.no_brace h (Head.mem_all h)) [] []
  rw [List.append_nil, vformatChars, List.append_nil] at hchars
  rw [← String.toList_inj, vformat, String.toList_ofList, String.append_empty, hchars]

lemma Relation.opposite_opposite (r : Relation) : r.opposite.opposite = r := by
  cases r <;> rfl

namespace Sense

variable {m : Sense s}

@[simp] lemma flip_flip (m : Sense s) : m.flip.flip = m := by
  cases m <;> simp [flip, Relation.opposite_opposite]

lemma Plain.flip (h : m.Plain) : m.flip.Plain := by
  cases m <;> exact h

/-- What is not accepted is accepted by the inverted matcher. -/
lemma holds_flip {ops : Operators} (hops : Complementary ops) (h : m.Plain)
    (hm : m.head ≠ .wildcard) (target : s.Value) :
    m.flip.holds ops target = !m.holds ops target := by
  have hbeq : ∀ a b : Bool, (a == !b) = !(a == b) := by decide
  cases m with
  | wildcard => exact absurd rfl hm
  | compare r value => exact hops s r target value h
  | _ => exact hbeq _ _

end Sense

namespace Expr

variable {m : Expr b s} {ops : Operators}

lemma sense_head (m : Expr b s) (hb : b = true) : m.sense.head ≠ .wildcard := by
  induction m with
  | wildcard => cases hb
  | not m ih =>
    have hm := ih rfl
    simp only [sense]
    revert hm
    cases m.sense <;> simp [Sense.flip, Sense.head]
  | _ => simp [sense, Sense.head]

lemma Plain.sense (h : m.Plain) : m.sense.Plain := by
  induction m with
  | eachElement m ih => exact ih h
  | anyElement m ih => exact ih h
  | not m ih => exact (ih h).flip
  | wildcard => trivial
  | comparison r value => exact h
  | rangeEq expected => exact h
  | unorderedEq expected => exact h
  | isSorted => trivial
  | isEmpty => trivial
  | hasSize expected => trivial

/-- The text of a matcher, and of the inverted one. -/
lemma matcher_describe (m : Expr b s) : (m.matcher ops).describe = m.sense.text ∧
    (b = true → (m.matcher ops).inverted.describe = m.sense.flip.text) := by
  induction m with
  | not m ih =>
    refine ⟨ih.2 rfl, fun _ => ?_⟩
    rw [sense, Sense.flip_flip]
    exact ih.1
  | wildcard => exact ⟨unfilled .wildcard, nofun⟩
  | comparison r value =>
    cases r with
    | equalTo => exact ⟨filled (.compare .equalTo) _, fun _ => filled (.compare .notEqualTo) _⟩
    | notEqualTo => exact ⟨filled (.compare .notEqualTo) _, fun _ => filled (.compare .equalTo) _⟩
    | less => exact ⟨filled (.compare .less) _, fun _ => filled (.compare .greaterEqual) _⟩
    | lessEqual => exact ⟨filled (.compare .lessEqual) _, fun _ => filled (.compare .greater) _⟩
    | greater => exact ⟨filled (.compare .greater) _, fun _ => filled (.compare .lessEqual) _⟩
    | greaterEqual => exact ⟨filled (.compare .greaterEqual) _, fun _ => filled (.compare .less) _⟩
  | rangeEq expected => exact ⟨filled (.elements true) _, fun _ => filled (.elements false) _⟩
  | unorderedEq expected =>
    exact ⟨filled (.permutation true) _, fun _ => filled (.permutation false) _⟩
  | isSorted => exact ⟨unfilled (.sorted true), fun _ => unfilled (.sorted false)⟩
  | isEmpty => exact ⟨unfilled (.empty true), fun _ => unfilled (.empty false)⟩
  | hasSize expected => exact ⟨filled (.size true) _, fun _ => filled (.size false) _⟩
  | eachElement m ih =>
    have hinner : m.sense.text = (m.matcher ops).describe := ih.1.symm
    simp only [sense, Sense.text, Sense.head, Sense.rest, Sense.flip] at hinner ⊢
    rw [hinner]
    exact ⟨filled (.each true) _, fun _ => filled (.each false) _⟩
  | anyElement m ih =>
    have hinner : m.sense.text = (m.matcher ops).describe := ih.1.symm
    simp only [sense, Sense.text, Sense.head, Sense.rest, Sense.flip] at hinner ⊢
    rw [hinner]
    exact ⟨filled (.any true) _, fun _ => filled (.any false) _⟩

lemma matcher_predicate (hops : Complementary ops) (hm : m.Plain) (target : s.Value) :
    (m.matcher ops).predicate target = m.sense.holds ops target := by
  have hpos : ∀ a : Bool, a = (a == true) := by decide
  induction m with
  | wildcard => rfl
  | comparison r value => cases r <;> rfl
  | rangeEq expected => exact hpos _
  | unorderedEq expected => exact hpos _
  | isSorted => exact hpos _
  | isEmpty => exact hpos _
  | hasSize expected => exact hpos _
  | eachElement m ih =>
    have hinner : (m.matcher ops).predicate = m.sense.holds ops := funext (ih hm)
    refine Eq.trans ?_ (hpos _)
    simp only [matcher, range.eachElement, hinner]
  | anyElement m ih =>
    have hinner : (m.matcher ops).predicate = m.sense.holds ops := funext (ih hm)
    refine Eq.trans ?_ (hpos _)
    simp only [matcher, range.anyElement, hinner]
  | not m ih =>
    have hplain : m.Plain := hm
    rw [sense, Sense.holds_flip hops hplain.sense (sense_head m rfl), ← ih hplain]
    rfl

end Expr

/-- Where the operators are complementary, a description says what is accepted. -/
lemma predicate_eq_of_describe {ops : Operators} (hops : Complementary ops) {m : Expr b s}
    {m' : Expr b' s} (hm : m.Plain) (hm' : m'.Plain)
    (heq : (m.matcher ops).describe = (m'.matcher ops).describe) (target : s.Value) :
    (m.matcher ops).predicate target = (m'.matcher ops).predicate target := by
  rw [m.matcher_describe.1, m'.matcher_describe.1] at heq
  rw [Expr.matcher_predicate hops hm, Expr.matcher_predicate hops hm',
    Sense.text_injective hm.sense hm'.sense heq]

/-- The matcher of one argument. -/
def Expr.argMatcher {Exc : Type} (m : Expr b s) : Matcher s.Value Exc where
  matchesArgs args := .ok (args.all fun arg => (m.matcher ops).predicate arg.value)
  description := .ok (m.matcher ops).describe

/-- **A line of a report says what is required**: two requirements on arguments that are described
alike are about the same argument, and accept the same calls. -/
theorem arg_described_alike {ops : Operators} (hops : Complementary ops) {n : ℕ} {τ Exc : Type}
    {i j : Fin n} {m : Expr b s} {m' : Expr b' s} (hm : m.Plain) (hm' : m'.Plain)
    (store : Store s.Value τ)
    (heq : (arg i (m.argMatcher ops) identity : Policy (Store s.Value τ) _ Exc).describe store =
      (arg j (m'.argMatcher ops) identity : Policy (Store s.Value τ) _ Exc).describe store) :
    i = j ∧ ∀ store info,
      (arg i (m.argMatcher ops) identity : Policy (Store s.Value τ) _ Exc).matchesCall store info =
        (arg j (m'.argMatcher ops) identity : Policy (Store s.Value τ) _ Exc).matchesCall store
          info := by
  obtain ⟨hindices, hdesc⟩ :=
    argRequirementDescriber_injective (Option.some.inj (Except.ok.inj heq))
  obtain rfl : i = j := Fin.ext (List.cons.inj hindices).1
  have hmatcher : (m.argMatcher ops : Matcher s.Value Exc) = m'.argMatcher ops := by
    have hpred := predicate_eq_of_describe hops hm hm' hdesc
    simp only [Expr.argMatcher, hpred]
    exact congrArg (Matcher.mk _) (congrArg Except.ok hdesc)
  exact ⟨rfl, fun store info => by rw [hmatcher]⟩

end MimicPP.Matchers
