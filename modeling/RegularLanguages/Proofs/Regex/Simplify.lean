import Mathlib.Algebra.Order.Kleene
import Mathlib.Order.CompletePartialOrder
import RegularLanguages.Proofs.Distinct
import RegularLanguages.Proofs.Regex.Literal
import RegularLanguages.Regex.Language
import RegularLanguages.Regex.Simplify

/-! # Simplification keeps the language

One round makes the tree flat, whatever it was before: a sequence or a choice
that it builds has two parts or more, none of its own kind (`isFlat_reduce`).  In
particular no part is a choice without branches, which splicing would lose
although it stands for the empty word.  So each rule keeps the language
(`language_reduce`), and no rule brings in a leaf that was not there. -/
set_option autoImplicit false
namespace RegularLanguages.Regex

variable {r s : Regex} {items branches parts : List Regex} {w : List Char}

/-! ## Flat trees -/

theorem isFlat_iff : IsFlat r ↔ FlatNode r ∧ ∀ part ∈ r.parts, IsFlat part :=
  forall_subtree_iff

theorem isFlat_cat : IsFlat (cat items) ↔
    2 ≤ items.length ∧ ∀ item ∈ items, IsFlat item ∧ item.isCat = false := by
  rw [isFlat_iff]
  exact ⟨fun ⟨⟨two, others⟩, flat⟩ => ⟨two, fun item mem => ⟨flat item mem, others item mem⟩⟩,
    fun ⟨two, all⟩ => ⟨⟨two, fun item mem => (all item mem).2⟩, fun item mem => (all item mem).1⟩⟩

theorem isFlat_alt : IsFlat (alt branches) ↔
    2 ≤ branches.length ∧ ∀ branch ∈ branches, IsFlat branch ∧ branch.isAlt = false := by
  rw [isFlat_iff]
  exact ⟨fun ⟨⟨two, others⟩, flat⟩ => ⟨two, fun item mem => ⟨flat item mem, others item mem⟩⟩,
    fun ⟨two, all⟩ => ⟨⟨two, fun item mem => (all item mem).2⟩, fun item mem => (all item mem).1⟩⟩

theorem isFlat_epsilon : IsFlat epsilon := isFlat_iff.2 ⟨trivial, fun _ mem => nomatch mem⟩

theorem isFlat_apply (operator : Repetition) : IsFlat (operator.apply r) ↔ IsFlat r := by
  rw [isFlat_iff, parts_apply, List.forall_mem_singleton]
  cases operator <;> exact iff_of_eq (true_and _)

def IsItem (r : Regex) : Prop := IsFlat r ∧ r.isCat = false

def IsBranch (r : Regex) : Prop := IsFlat r ∧ r.isAlt = false

theorem isFlat_concat (all : ∀ item ∈ items, IsItem item) : IsFlat (concat items) := by
  match items with
  | [] => exact isFlat_epsilon
  | [item] => exact (all item List.mem_cons_self).1
  | first :: second :: rest => exact isFlat_cat.2 ⟨by simp, all⟩

theorem isFlat_alternation (all : ∀ branch ∈ branches, IsBranch branch) :
    IsFlat (alternation branches) := by
  match branches with
  | [] => exact isFlat_epsilon
  | [branch] => exact (all branch List.mem_cons_self).1
  | first :: second :: rest => exact isFlat_alt.2 ⟨by simp, all⟩

/-! ## One round makes a tree flat -/

theorem isItem_of_mem_spliceItems (flat : IsFlat r) (mem : s ∈ spliceItems r) : IsItem s := by
  cases r with
  | cat items => exact (isFlat_cat.1 flat).2 s mem
  | epsilon => cases mem
  | _ => exact List.mem_singleton.1 mem ▸ ⟨flat, rfl⟩

theorem isBranch_of_mem_spliceBranches (flat : IsFlat r) (mem : s ∈ spliceBranches r) :
    IsBranch s := by
  cases r with
  | alt branches => exact (isFlat_alt.1 flat).2 s mem
  | _ => exact List.mem_singleton.1 mem ▸ ⟨flat, rfl⟩

/-- What two neighbours become: the repetition of one of them, where the other
is its star or both are the same star. -/
theorem joinItems?_eq_some {before after joined : Regex}
    (joins : joinItems? before after = some joined) :
    (after = star before ∧ joined = plus before) ∨ (before = star after ∧ joined = plus after) ∨
      ∃ inner, before = star inner ∧ after = star inner ∧ joined = star inner := by
  rw [joinItems?.eq_def] at joins
  by_cases first : after = star before
  · rw [if_pos first] at joins
    exact .inl ⟨first, (Option.some.inj joins).symm⟩
  · rw [if_neg first] at joins
    by_cases second : before = star after
    · rw [if_pos second] at joins
      exact .inr (.inl ⟨second, (Option.some.inj joins).symm⟩)
    · rw [if_neg second] at joins
      cases before with
      | star inner =>
          by_cases same : star inner = after
          · rw [if_pos same] at joins
            exact .inr (.inr ⟨inner, rfl, same.symm, (Option.some.inj joins).symm⟩)
          · rw [if_neg same] at joins
            cases joins
      | _ => cases joins

theorem isItem_of_joinItems? {before after joined : Regex}
    (joins : joinItems? before after = some joined) (first : IsItem before)
    (second : IsItem after) : IsItem joined := by
  rcases joinItems?_eq_some joins with ⟨-, rfl⟩ | ⟨-, rfl⟩ | ⟨inner, rfl, -, rfl⟩
  · exact ⟨(isFlat_apply .plus).2 first.1, rfl⟩
  · exact ⟨(isFlat_apply .plus).2 second.1, rfl⟩
  · exact first

theorem addItem_cons (last : Regex) (rest : List Regex) (item : Regex) :
    (∃ joined, joinItems? last item = some joined ∧ addItem (last :: rest) item = joined :: rest) ∨
      addItem (last :: rest) item = item :: last :: rest := by
  rw [addItem]
  cases joins : joinItems? last item with
  | some joined => exact .inl ⟨joined, rfl, rfl⟩
  | none => exact .inr rfl

theorem isItem_addItem (all : ∀ item ∈ items, IsItem item) (new : IsItem r) :
    ∀ item ∈ addItem items r, IsItem item := by
  cases items with
  | nil => exact fun item mem => List.mem_singleton.1 mem ▸ new
  | cons last rest =>
      have others := List.forall_mem_cons.1 all
      rcases addItem_cons last rest r with ⟨joined, joins, eq⟩ | eq
      · rw [eq]
        exact List.forall_mem_cons.2 ⟨isItem_of_joinItems? joins others.1 new, others.2⟩
      · rw [eq]
        exact List.forall_mem_cons.2 ⟨new, all⟩

theorem isItem_foldl_addItem (known : ∀ item ∈ parts, IsItem item)
    (all : ∀ item ∈ items, IsItem item) : ∀ item ∈ items.foldl addItem parts, IsItem item := by
  induction items generalizing parts with
  | nil => exact known
  | cons item rest ih =>
      have others := List.forall_mem_cons.1 all
      exact ih (isItem_addItem known others.1) others.2

theorem isFlat_joinSequence (flat : ∀ item ∈ items, IsFlat item) : IsFlat (joinSequence items) := by
  refine isFlat_concat fun item mem => ?_
  have nothing : ∀ item ∈ ([] : List Regex), IsItem item := fun _ mem => nomatch mem
  refine isItem_foldl_addItem nothing (fun item mem => ?_) item (List.mem_reverse.1 mem)
  obtain ⟨part, inItems, inPart⟩ := List.mem_flatMap.1 mem
  exact isItem_of_mem_spliceItems (flat part inItems) inPart

def distinctBranches (branches : List Regex) : List Regex :=
  Distinct.ofList (branches.flatMap spliceBranches)

theorem mem_distinctBranches :
    s ∈ distinctBranches branches ↔ ∃ branch ∈ branches, s ∈ spliceBranches branch := by
  rw [distinctBranches, Distinct.ofList, Distinct.mem_foldl_add, List.mem_flatMap]
  simp

/-- A choice is its different branches, or those but for the empty word, of
which one matches the empty word or which are made optional. -/
theorem joinChoice_cases (branches : List Regex) :
    (epsilon ∉ distinctBranches branches ∧
      joinChoice branches = alternation (distinctBranches branches)) ∨
    ∃ rest, rest = (distinctBranches branches).filter (· ≠ epsilon) ∧
      epsilon ∈ distinctBranches branches ∧
      ((rest = [] ∧ joinChoice branches = epsilon) ∨
        (rest ≠ [] ∧ rest.any nullable = true ∧ joinChoice branches = alternation rest) ∨
        (rest ≠ [] ∧ joinChoice branches = opt (alternation rest))) := by
  rw [joinChoice, ← distinctBranches]
  by_cases mem : epsilon ∈ distinctBranches branches
  · simp only [if_pos mem]
    refine .inr ⟨_, rfl, mem, ?_⟩
    split
    next empty => exact .inl ⟨empty, rfl⟩
    next rest others =>
      split
      next nullable => exact .inr (.inl ⟨others, nullable, rfl⟩)
      next => exact .inr (.inr ⟨others, rfl⟩)
  · rw [if_neg mem]
    exact .inl ⟨mem, rfl⟩

theorem isFlat_joinChoice (flat : ∀ branch ∈ branches, IsFlat branch) :
    IsFlat (joinChoice branches) := by
  have all : ∀ branch ∈ distinctBranches branches, IsBranch branch := by
    intro branch mem
    obtain ⟨part, inBranches, inPart⟩ := mem_distinctBranches.1 mem
    exact isBranch_of_mem_spliceBranches (flat part inBranches) inPart
  have filtered : ∀ branch ∈ (distinctBranches branches).filter (· ≠ epsilon), IsBranch branch :=
    fun branch mem => all branch (List.mem_filter.1 mem).1
  rcases joinChoice_cases branches with
    ⟨-, eq⟩ | ⟨rest, rfl, -, ⟨-, eq⟩ | ⟨-, -, eq⟩ | ⟨-, eq⟩⟩
  · exact eq ▸ isFlat_alternation all
  · exact eq ▸ isFlat_epsilon
  · exact eq ▸ isFlat_alternation filtered
  · exact eq ▸ (isFlat_apply .opt).2 (isFlat_alternation filtered)

/-- What a round makes of a repetition whose operand is reduced already. -/
def Repetition.join : Repetition → Regex → Regex
  | star => joinStar
  | plus => joinPlus
  | opt => joinOpt

theorem reduce_apply (operator : Repetition) (r : Regex) :
    reduce (operator.apply r) = operator.join (reduce r) := by
  cases operator <;> rfl

/-- A rule for repetitions leaves the node as it is, or drops the operator, or
puts a star for two operators. -/
theorem join_cases (operator : Repetition) (r : Regex) :
    (r ≠ epsilon ∧ NormalNode (operator.apply r) ∧ operator.join r = operator.apply r) ∨
      operator.join r = r ∨
      ∃ (below : Repetition) (inner : Regex), r = below.apply inner ∧
        operator.join r = star inner := by
  cases operator with
  | star =>
      cases r with
      | epsilon => exact .inr (.inl rfl)
      | star inner => exact .inr (.inl rfl)
      | plus inner => exact .inr (.inr ⟨.plus, inner, rfl, rfl⟩)
      | opt inner => exact .inr (.inr ⟨.opt, inner, rfl, rfl⟩)
      | _ => exact .inl ⟨by simp, rfl, rfl⟩
  | plus =>
      cases r with
      | epsilon => exact .inr (.inl rfl)
      | star inner => exact .inr (.inl rfl)
      | plus inner => exact .inr (.inl rfl)
      | opt inner => exact .inr (.inr ⟨.opt, inner, rfl, rfl⟩)
      | _ => exact .inl ⟨by simp, rfl, rfl⟩
  | opt =>
      have otherwise (noPlus : r.isPlus = false)
          (rule : joinOpt r = if nullable r then r else opt r) :
          (r ≠ epsilon ∧ NormalNode (opt r) ∧ joinOpt r = opt r) ∨ joinOpt r = r := by
        cases needed : r.nullable with
        | true => exact .inr (rule.trans (if_pos needed))
        | false =>
            refine .inl ⟨?_, ⟨needed, noPlus⟩, rule.trans (if_neg (by simp [needed]))⟩
            rintro rfl
            cases needed
      cases r with
      | star inner => exact .inr (.inl rfl)
      | plus inner => exact .inr (.inr ⟨.plus, inner, rfl, rfl⟩)
      | _ => exact (otherwise rfl rfl).imp_right .inl

theorem isFlat_join (operator : Repetition) (flat : IsFlat r) : IsFlat (operator.join r) := by
  rcases join_cases operator r with ⟨-, -, eq⟩ | eq | ⟨below, inner, rfl, eq⟩
  · exact eq ▸ (isFlat_apply operator).2 flat
  · exact eq.symm ▸ flat
  · exact eq ▸ (isFlat_apply .star).2 ((isFlat_apply below).1 flat)

theorem reduceAll_eq (items : List Regex) : reduceAll items = items.map reduce := by
  induction items with
  | nil => rfl
  | cons item rest ih => rw [reduceAll, ih, List.map_cons]

theorem isFlat_reduce (r : Regex) : IsFlat (reduce r) := by
  induction r using induct_apply with
  | epsilon => exact isFlat_epsilon
  | any => exact isFlat_iff.2 ⟨trivial, fun _ mem => nomatch mem⟩
  | lit c => exact isFlat_iff.2 ⟨trivial, fun _ mem => nomatch mem⟩
  | cat items each =>
      rw [reduce, reduceAll_eq]
      exact isFlat_joinSequence (List.forall_mem_map.2 each)
  | alt branches each =>
      rw [reduce, reduceAll_eq]
      exact isFlat_joinChoice (List.forall_mem_map.2 each)
  | repeated operator inner ih => exact reduce_apply operator inner ▸ isFlat_join operator ih

/-! ## The language of sequences -/

theorem sequenceLanguage_spliceItems (r : Regex) :
    sequenceLanguage (spliceItems r) = language r := by
  cases r with
  | cat items => rw [spliceItems, language]
  | epsilon => rfl
  | _ => exact mul_one _

theorem sequenceLanguage_flatMap_spliceItems (items : List Regex) :
    sequenceLanguage (items.flatMap spliceItems) = sequenceLanguage items := by
  induction items with
  | nil => rfl
  | cons item rest ih =>
      rw [List.flatMap_cons, sequenceLanguage_append, sequenceLanguage_spliceItems, ih,
        sequenceLanguage]

theorem language_joinItems? {before after joined : Regex}
    (joins : joinItems? before after = some joined) :
    language joined = language before * language after := by
  rcases joinItems?_eq_some joins with ⟨rfl, rfl⟩ | ⟨rfl, rfl⟩ | ⟨inner, rfl, rfl, rfl⟩
  · rw [language, language]
  · rw [language, language, Language.mul_self_kstar_comm]
  · rw [language, kstar_mul_kstar]

theorem sequenceLanguage_addItem (items : List Regex) (r : Regex) :
    sequenceLanguage (addItem items r).reverse = sequenceLanguage items.reverse * language r := by
  have single : ∀ r : Regex, sequenceLanguage [r] = language r := fun r => by
    rw [sequenceLanguage, sequenceLanguage, mul_one]
  cases items with
  | nil => rw [addItem, List.reverse_singleton, single, List.reverse_nil, sequenceLanguage, one_mul]
  | cons last rest =>
      rcases addItem_cons last rest r with ⟨joined, joins, eq⟩ | eq
      · rw [eq, List.reverse_cons, List.reverse_cons, sequenceLanguage_append,
          sequenceLanguage_append, single, single, language_joinItems? joins, mul_assoc]
      · rw [eq, List.reverse_cons, sequenceLanguage_append, single]

theorem sequenceLanguage_foldl_addItem (items parts : List Regex) :
    sequenceLanguage (items.foldl addItem parts).reverse =
      sequenceLanguage parts.reverse * sequenceLanguage items := by
  induction items generalizing parts with
  | nil => rw [List.foldl_nil, sequenceLanguage, mul_one]
  | cons item rest ih =>
      rw [List.foldl_cons, ih, sequenceLanguage_addItem, sequenceLanguage, mul_assoc]

theorem language_joinSequence (items : List Regex) :
    language (joinSequence items) = sequenceLanguage items := by
  rw [joinSequence, language_concat, sequenceLanguage_foldl_addItem, List.reverse_nil,
    sequenceLanguage_flatMap_spliceItems, sequenceLanguage, one_mul]

/-! ## The language of choices -/

theorem nil_mem_language_of_nullable (h : nullable r = true) : [] ∈ language r := by
  induction r with
  | epsilon => exact Language.nil_mem_one
  | any => cases h
  | lit c => cases h
  | cat items each =>
      rw [nullable] at h
      rw [language]
      induction items with
      | nil => exact Language.nil_mem_one
      | cons item rest ih =>
          rw [allNullable, Bool.and_eq_true] at h
          exact Language.append_mem_mul (each item List.mem_cons_self h.1)
            (ih (fun r mem => each r (List.mem_cons_of_mem item mem)) h.2)
  | alt branches each =>
      rw [nullable] at h
      have matching : ∃ branch ∈ branches, [] ∈ language branch := by
        induction branches with
        | nil => cases h
        | cons branch rest ih =>
            rw [someNullable, Bool.or_eq_true] at h
            rcases h with first | others
            · exact ⟨branch, List.mem_cons_self, each branch List.mem_cons_self first⟩
            · obtain ⟨other, mem, matches'⟩ :=
                ih (fun r mem => each r (List.mem_cons_of_mem branch mem)) others
              exact ⟨other, List.mem_cons_of_mem branch mem, matches'⟩
      obtain ⟨branch, mem, empty⟩ := matching
      rw [language, if_neg (by simpa using List.ne_nil_of_mem mem)]
      exact (mem_choiceLanguage [] branches).2 ⟨branch, mem, empty⟩
  | star inner _ => exact Language.nil_mem_kstar _
  | plus inner ih =>
      rw [nullable] at h
      exact Language.append_mem_mul (ih h) (Language.nil_mem_kstar _)
  | opt inner _ => exact .inl rfl

/-- A tree that is no choice without branches means what its branches mean. -/
theorem language_eq_choiceLanguage (nonempty : spliceBranches r ≠ []) :
    language r = choiceLanguage (spliceBranches r) := by
  cases r with
  | alt branches =>
      rw [language, if_neg (by simpa [spliceBranches] using nonempty)]
      rfl
  | _ => exact (add_zero _).symm

theorem spliceBranches_ne_nil (flat : IsFlat r) : spliceBranches r ≠ [] := by
  cases r with
  | alt branches =>
      have two := (isFlat_alt.1 flat).1
      exact List.ne_nil_of_length_pos (Nat.lt_of_lt_of_le Nat.zero_lt_two two)
  | _ => exact List.cons_ne_nil _ _

theorem choiceLanguage_distinctBranches
    (nonempty : ∀ branch ∈ branches, spliceBranches branch ≠ []) :
    choiceLanguage (distinctBranches branches) = choiceLanguage branches := by
  ext w
  rw [mem_choiceLanguage, mem_choiceLanguage]
  constructor
  · rintro ⟨s, mem, matches'⟩
    obtain ⟨branch, inBranches, inBranch⟩ := mem_distinctBranches.1 mem
    refine ⟨branch, inBranches, ?_⟩
    rw [language_eq_choiceLanguage (nonempty branch inBranches), mem_choiceLanguage]
    exact ⟨s, inBranch, matches'⟩
  · rintro ⟨branch, inBranches, matches'⟩
    rw [language_eq_choiceLanguage (nonempty branch inBranches), mem_choiceLanguage] at matches'
    obtain ⟨s, inBranch, matches'⟩ := matches'
    exact ⟨s, mem_distinctBranches.2 ⟨branch, inBranches, inBranch⟩, matches'⟩

theorem choiceLanguage_of_mem_epsilon (mem : epsilon ∈ branches) :
    choiceLanguage branches = 1 + choiceLanguage (branches.filter (· ≠ epsilon)) := by
  ext w
  simp only [Language.mem_add, Language.mem_one, mem_choiceLanguage, List.mem_filter,
    decide_eq_true_eq]
  constructor
  · rintro ⟨branch, inside, matches'⟩
    by_cases empty : branch = epsilon
    · subst empty
      exact .inl matches'
    · exact .inr ⟨branch, ⟨inside, empty⟩, matches'⟩
  · rintro (rfl | ⟨branch, ⟨inside, -⟩, matches'⟩)
    · exact ⟨epsilon, mem, Language.nil_mem_one⟩
    · exact ⟨branch, inside, matches'⟩

theorem language_joinChoice (flat : ∀ branch ∈ branches, IsFlat branch) :
    language (joinChoice branches) = language (alt branches) := by
  have nonempty : ∀ branch ∈ branches, spliceBranches branch ≠ [] := fun branch mem =>
    spliceBranches_ne_nil (flat branch mem)
  by_cases empty : branches = []
  · subst empty
    rfl
  have meaning : language (alt branches) = choiceLanguage (distinctBranches branches) := by
    rw [choiceLanguage_distinctBranches nonempty, language, if_neg (by simpa using empty)]
  rw [meaning]
  rcases joinChoice_cases branches with
    ⟨-, eq⟩ | ⟨rest, rfl, mem, ⟨alone, eq⟩ | ⟨others, nullable, eq⟩ | ⟨others, eq⟩⟩
  · have there : distinctBranches branches ≠ [] := by
      obtain ⟨branch, inBranches⟩ := List.exists_mem_of_ne_nil _ empty
      obtain ⟨s, inBranch⟩ := List.exists_mem_of_ne_nil _ (nonempty branch inBranches)
      exact List.ne_nil_of_mem (mem_distinctBranches.2 ⟨branch, inBranches, inBranch⟩)
    rw [eq, language_alternation there]
  · rw [eq, choiceLanguage_of_mem_epsilon mem, alone, choiceLanguage, add_zero, language]
  · rw [eq, choiceLanguage_of_mem_epsilon mem, language_alternation others, eq_comm,
      add_eq_right_iff_le]
    rintro w (rfl : w = [])
    obtain ⟨branch, inside, matches'⟩ := List.any_eq_true.1 nullable
    exact (mem_choiceLanguage _ _).2 ⟨branch, inside, nil_mem_language_of_nullable matches'⟩
  · rw [eq, choiceLanguage_of_mem_epsilon mem, language, language_alternation others]

/-! ## The language of repetitions -/

section Repetition

variable {a b : Language Char}

theorem kstar_eq_of_le (lower : a ≤ b) (upper : b ≤ KStar.kstar a) :
    KStar.kstar b = KStar.kstar a :=
  le_antisymm (kstar_idem a ▸ kstar_mono upper) (kstar_mono lower)

theorem kstar_mul_kstar_self (a : Language Char) :
    KStar.kstar (a * KStar.kstar a) = KStar.kstar a := by
  refine kstar_eq_of_le ?_ mul_kstar_le_kstar
  calc a = a * 1 := (mul_one a).symm
    _ ≤ a * KStar.kstar a := mul_le_mul_right one_le_kstar a

theorem kstar_one_add (a : Language Char) : KStar.kstar (1 + a) = KStar.kstar a :=
  kstar_eq_of_le (by simp) (add_le one_le_kstar le_kstar)

end Repetition

theorem language_joinStar (r : Regex) : language (joinStar r) = KStar.kstar (language r) := by
  cases r with
  | epsilon => exact kstar_one.symm
  | star inner => exact (kstar_idem _).symm
  | plus inner => exact (kstar_mul_kstar_self _).symm
  | opt inner => exact (kstar_one_add _).symm
  | _ => rfl

theorem language_joinPlus (r : Regex) :
    language (joinPlus r) = language r * KStar.kstar (language r) := by
  cases r with
  | epsilon =>
      rw [joinPlus, language, kstar_one, one_mul]
  | star inner =>
      rw [joinPlus, language, kstar_idem, kstar_mul_kstar]
  | plus inner =>
      rw [joinPlus, language, kstar_mul_kstar_self, mul_assoc, kstar_mul_kstar]
  | opt inner =>
      rw [joinPlus, language, language, kstar_one_add, add_mul, one_mul, eq_comm,
        add_eq_left_iff_le]
      exact mul_kstar_le_kstar
  | _ => rfl

theorem one_add_language_of_nullable (h : nullable r = true) : 1 + language r = language r := by
  rw [add_eq_right_iff_le]
  rintro w (rfl : w = [])
  exact nil_mem_language_of_nullable h

theorem language_joinOpt (r : Regex) : language (joinOpt r) = 1 + language r := by
  have otherwise : language (if nullable r then r else opt r) = 1 + language r := by
    split
    next h => exact (one_add_language_of_nullable h).symm
    next => rfl
  cases r with
  | star inner => exact (add_eq_right_iff_le.2 one_le_kstar).symm
  | plus inner => exact one_add_mul_kstar.symm
  | _ => exact otherwise

theorem language_join (operator : Repetition) (r : Regex) :
    language (operator.join r) = language (operator.apply r) := by
  cases operator with
  | star => exact language_joinStar r
  | plus => exact language_joinPlus r
  | opt => exact language_joinOpt r

theorem language_apply_congr (operator : Repetition) (same : language r = language s) :
    language (operator.apply r) = language (operator.apply s) := by
  cases operator with
  | star => exact congrArg KStar.kstar same
  | plus => exact congrArg (fun words => words * KStar.kstar words) same
  | opt => exact congrArg (1 + ·) same

/-! ## Rounds -/

theorem sequenceLanguage_map {f : Regex → Regex}
    (keeps : ∀ item ∈ items, language (f item) = language item) :
    sequenceLanguage (items.map f) = sequenceLanguage items := by
  induction items with
  | nil => rfl
  | cons item rest ih =>
      have others := List.forall_mem_cons.1 keeps
      rw [List.map_cons, sequenceLanguage, sequenceLanguage, others.1, ih others.2]

theorem choiceLanguage_map {f : Regex → Regex}
    (keeps : ∀ item ∈ items, language (f item) = language item) :
    choiceLanguage (items.map f) = choiceLanguage items := by
  induction items with
  | nil => rfl
  | cons item rest ih =>
      have others := List.forall_mem_cons.1 keeps
      rw [List.map_cons, choiceLanguage, choiceLanguage, others.1, ih others.2]

theorem language_reduce (r : Regex) : language (reduce r) = language r := by
  induction r using induct_apply with
  | epsilon => rfl
  | any => rfl
  | lit c => rfl
  | cat items each =>
      rw [reduce, reduceAll_eq, language_joinSequence, language, sequenceLanguage_map each]
  | alt branches each =>
      have flat : ∀ branch ∈ branches.map reduce, IsFlat branch :=
        List.forall_mem_map.2 fun branch _ => isFlat_reduce branch
      rw [reduce, reduceAll_eq, language_joinChoice flat, language, language, List.isEmpty_map,
        choiceLanguage_map each]
  | repeated operator inner ih =>
      rw [reduce_apply, language_join]
      exact language_apply_congr operator ih

/-- What a round keeps, all rounds keep. -/
theorem settle_induction {motive : Regex → Prop} (round : ∀ r, motive r → motive (reduce r))
    (rounds : Nat) (start : motive r) : motive (settle rounds r) := by
  induction rounds generalizing r with
  | zero => exact start
  | succ rounds ih =>
      rw [settle]
      split
      · exact start
      · exact ih (round r start)

theorem language_simplify (r : Regex) : language (simplify r) = language r :=
  settle_induction (motive := fun s => language s = language r)
    (fun s same => (language_reduce s).trans same) _ rfl

theorem weight_pos (r : Regex) : 0 < weight r := measure_pos (by decide) (by decide) r

theorem isFlat_simplify (r : Regex) : IsFlat (simplify r) := by
  obtain ⟨rounds, eq⟩ := Nat.exists_eq_succ_of_ne_zero (Nat.ne_of_gt (weight_pos r))
  rw [simplify, eq, settle]
  split
  next settled => exact settled ▸ isFlat_reduce r
  next => exact settle_induction (fun s _ => isFlat_reduce s) rounds (isFlat_reduce r)

/-! ## Leaves -/

section Leaves

variable {label : Label}

theorem occurrencesOf_single (r : Regex) : occurrencesOf [r] = r.occurrences :=
  List.append_nil _

theorem occurrences_concat (items : List Regex) :
    (concat items).occurrences = occurrencesOf items := by
  match items with
  | [] => rfl
  | [item] => exact (occurrencesOf_single item).symm
  | first :: second :: rest => rfl

theorem occurrences_alternation (branches : List Regex) :
    (alternation branches).occurrences = occurrencesOf branches := by
  match branches with
  | [] => rfl
  | [branch] => exact (occurrencesOf_single branch).symm
  | first :: second :: rest => rfl

theorem occurrencesOf_spliceItems (r : Regex) : occurrencesOf (spliceItems r) = r.occurrences := by
  cases r with
  | cat items => rfl
  | epsilon => rfl
  | _ => exact occurrencesOf_single _

theorem occurrencesOf_spliceBranches (r : Regex) :
    occurrencesOf (spliceBranches r) = r.occurrences := by
  cases r with
  | alt branches => rfl
  | _ => exact occurrencesOf_single _

theorem occurrences_joinItems? {before after joined : Regex}
    (joins : joinItems? before after = some joined) (mem : label ∈ joined.occurrences) :
    label ∈ before.occurrences := by
  rcases joinItems?_eq_some joins with ⟨-, rfl⟩ | ⟨rfl, rfl⟩ | ⟨inner, rfl, -, rfl⟩
  · exact mem
  · exact mem
  · exact mem

theorem occurrences_addItem (mem : label ∈ occurrencesOf (addItem items r)) :
    label ∈ occurrencesOf items ∨ label ∈ r.occurrences := by
  cases items with
  | nil =>
      rw [addItem, occurrencesOf_single] at mem
      exact .inr mem
  | cons last rest =>
      rcases addItem_cons last rest r with ⟨joined, joins, eq⟩ | eq
      · rw [eq, occurrencesOf, List.mem_append] at mem
        rw [occurrencesOf, List.mem_append]
        exact .inl (mem.imp_left (occurrences_joinItems? joins))
      · rw [eq, occurrencesOf, List.mem_append] at mem
        exact mem.symm

theorem occurrences_foldl_addItem (mem : label ∈ occurrencesOf (items.foldl addItem parts)) :
    label ∈ occurrencesOf parts ∨ label ∈ occurrencesOf items := by
  induction items generalizing parts with
  | nil => exact .inl mem
  | cons item rest ih =>
      rw [occurrencesOf, List.mem_append, ← or_assoc]
      exact (ih mem).imp_left occurrences_addItem

theorem occurrences_joinSequence (mem : label ∈ (joinSequence items).occurrences) :
    label ∈ occurrencesOf items := by
  rw [joinSequence, occurrences_concat, mem_occurrencesOf] at mem
  obtain ⟨item, inside, leaf⟩ := mem
  have folded : label ∈ occurrencesOf ((items.flatMap spliceItems).foldl addItem []) :=
    (mem_occurrencesOf _ _).2 ⟨item, List.mem_reverse.1 inside, leaf⟩
  rcases occurrences_foldl_addItem folded with inNothing | spliced
  · exact absurd inNothing List.not_mem_nil
  · obtain ⟨s, mem, leaf⟩ := (mem_occurrencesOf _ _).1 spliced
    obtain ⟨part, inItems, inPart⟩ := List.mem_flatMap.1 mem
    refine (mem_occurrencesOf _ _).2 ⟨part, inItems, ?_⟩
    rw [← occurrencesOf_spliceItems]
    exact (mem_occurrencesOf _ _).2 ⟨s, inPart, leaf⟩

theorem occurrencesOf_distinctBranches (sub : items ⊆ distinctBranches branches)
    (mem : label ∈ (alternation items).occurrences) : label ∈ occurrencesOf branches := by
  rw [occurrences_alternation, mem_occurrencesOf] at mem
  obtain ⟨s, inside, leaf⟩ := mem
  obtain ⟨branch, inBranches, inBranch⟩ := mem_distinctBranches.1 (sub inside)
  refine (mem_occurrencesOf _ _).2 ⟨branch, inBranches, ?_⟩
  rw [← occurrencesOf_spliceBranches]
  exact (mem_occurrencesOf _ _).2 ⟨s, inBranch, leaf⟩

theorem occurrences_joinChoice (mem : label ∈ (joinChoice branches).occurrences) :
    label ∈ occurrencesOf branches := by
  have filtered : (distinctBranches branches).filter (· ≠ epsilon) ⊆ distinctBranches branches :=
    fun _ inside => (List.mem_filter.1 inside).1
  rcases joinChoice_cases branches with
    ⟨-, eq⟩ | ⟨rest, rfl, -, ⟨-, eq⟩ | ⟨-, -, eq⟩ | ⟨-, eq⟩⟩
  · exact occurrencesOf_distinctBranches (List.Subset.refl _) (eq ▸ mem)
  · exact absurd (eq ▸ mem) List.not_mem_nil
  · exact occurrencesOf_distinctBranches filtered (eq ▸ mem)
  · rw [eq] at mem
    exact occurrencesOf_distinctBranches filtered mem

theorem occurrences_join (operator : Repetition) (r : Regex) :
    (operator.join r).occurrences = r.occurrences := by
  rcases join_cases operator r with ⟨-, -, eq⟩ | eq | ⟨below, inner, rfl, eq⟩
  · rw [eq, occurrences_apply]
  · rw [eq]
  · rw [eq, occurrences_apply]
    rfl

theorem occurrences_reduce (r : Regex) : (reduce r).occurrences ⊆ r.occurrences := by
  have map : ∀ {items : List Regex} {label : Label},
      (∀ item ∈ items, (reduce item).occurrences ⊆ item.occurrences) →
        label ∈ occurrencesOf (items.map reduce) → label ∈ occurrencesOf items := by
    intro items label each mem
    simp only [mem_occurrencesOf, List.mem_map] at mem ⊢
    obtain ⟨_, ⟨item, inside, rfl⟩, leaf⟩ := mem
    exact ⟨item, inside, each item inside leaf⟩
  induction r using induct_apply with
  | epsilon => exact List.Subset.refl _
  | any => exact List.Subset.refl _
  | lit c => exact List.Subset.refl _
  | cat items each =>
      intro label mem
      rw [reduce, reduceAll_eq] at mem
      exact map each (occurrences_joinSequence mem)
  | alt branches each =>
      intro label mem
      rw [reduce, reduceAll_eq] at mem
      exact map each (occurrences_joinChoice mem)
  | repeated operator inner ih =>
      rw [reduce_apply, occurrences_join, occurrences_apply]
      exact ih

theorem occurrences_simplify (r : Regex) : (simplify r).occurrences ⊆ r.occurrences :=
  settle_induction (motive := fun s => s.occurrences ⊆ r.occurrences)
    (fun s sub => List.Subset.trans (occurrences_reduce s) sub) _ (List.Subset.refl _)

end Leaves

end RegularLanguages.Regex
