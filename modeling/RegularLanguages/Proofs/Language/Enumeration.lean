import RegularLanguages.Language.Tuples
import RegularLanguages.Proofs.Language.Words

/-! # Every word once, and in order

Tuples have different positions, so there is one list of them in the order of
positions: any enumeration gives the words that are compared
(`EnumeratesTuples.words_eq`).  Over an alphabet without repetition these are all
words up to the length, and each comes before those behind it
(`pairwise_words`).  So the word that a comparison finds is the first on which
two recognizers disagree, and it finds one if there is any
(`findDifference_finds_first`). -/
set_option autoImplicit false
namespace RegularLanguages

variable {α : Type} {lists : List (List α)} {product : List (List α) → List (List α)}
  {alphabet word other : List Char} {maxLength length : Nat}

/-! ## Tuples by position -/

theorem TupleAt.unique {positions : List Nat} {tuple tuple' : List α}
    (h : TupleAt lists positions tuple) (h' : TupleAt lists positions tuple') :
    tuple = tuple' := by
  induction h generalizing tuple' with
  | nil =>
      cases h'
      rfl
  | cons first _ ih =>
      cases h' with
      | cons first' rest' =>
          rw [first, Option.some.injEq] at first'
          rw [first', ih rest']

def positions (lists : List (List α)) : List (List Nat) :=
  tuples (lists.map fun xs => List.range xs.length)

theorem mem_positions_iff {p : List Nat} :
    p ∈ positions lists ↔ ∃ tuple, TupleAt lists p tuple := by
  induction lists generalizing p with
  | nil =>
      constructor
      · intro mem
        obtain rfl := List.mem_singleton.1 mem
        exact ⟨[], .nil⟩
      · intro ⟨tuple, h⟩
        cases h
        exact List.mem_singleton_self []
  | cons xs lists ih =>
      simp only [positions, List.map_cons, tuples, List.mem_flatMap, List.mem_range,
        List.mem_map]
      constructor
      · intro ⟨i, lt, rest, mem, same⟩
        subst same
        obtain ⟨tuple, h⟩ := ih.1 mem
        exact ⟨xs[i] :: tuple, .cons (List.getElem?_eq_getElem lt) h⟩
      · intro ⟨tuple, h⟩
        cases h with
        | @cons _ _ i rest x tuple there onward =>
            obtain ⟨lt, -⟩ := List.getElem?_eq_some_iff.1 there
            exact ⟨i, lt, rest, ih.2 ⟨tuple, onward⟩, rfl⟩

theorem forall₂_positions (lists : List (List α)) :
    List.Forall₂ (TupleAt lists) (positions lists) (tuples lists) := by
  induction lists with
  | nil => exact .cons .nil .nil
  | cons xs lists ih =>
      have firsts : List.Forall₂ (fun i x => xs[i]? = some x) (List.range xs.length) xs := by
        apply List.forall₂_iff_get.2
        simp
      apply List.rel_flatMap firsts
      intro i x there
      apply List.rel_map _ ih
      intro p tuple h
      exact .cons there h

theorem increasing_tuples {lists : List (List Nat)}
    (increasing : ∀ xs ∈ lists, OrderedSet.Increasing xs) :
    OrderedSet.Increasing (tuples lists) := by
  induction lists with
  | nil => exact List.pairwise_singleton _ _
  | cons xs lists ih =>
      obtain ⟨first, others⟩ := List.forall_mem_cons.1 increasing
      apply List.pairwise_flatMap.2
      constructor
      · intro i _
        apply List.pairwise_map.2
        apply (ih others).imp
        intro p q less
        exact List.Lex.cons less
      · apply first.imp
        intro i j less p memP q memQ
        obtain ⟨p', -, rfl⟩ := List.mem_map.1 memP
        obtain ⟨q', -, rfl⟩ := List.mem_map.1 memQ
        exact List.Lex.rel less

theorem increasing_positions (lists : List (List α)) :
    OrderedSet.Increasing (positions lists) := by
  apply increasing_tuples
  intro xs mem
  obtain ⟨ys, -, rfl⟩ := List.mem_map.1 mem
  exact List.pairwise_lt_range

theorem enumeratesTuples_tuples : EnumeratesTuples (tuples (α := α)) := by
  intro lists _
  exact ⟨positions lists, increasing_positions lists, fun _ => mem_positions_iff,
    forall₂_positions lists⟩

theorem EnumeratesTuples.eq_tuples (h : EnumeratesTuples product) (nonempty : lists ≠ []) :
    product lists = tuples lists := by
  obtain ⟨places, increasing, mem_iff, each⟩ := h lists nonempty
  -- The order leaves no choice: increasing lists with the same members are equal.
  have same : places = positions lists := by
    apply increasing.ext (increasing_positions lists)
    intro p
    rw [mem_iff, mem_positions_iff]
  rw [same] at each
  have unique : Relator.RightUnique (TupleAt lists) := fun _ _ _ h h' => h.unique h'
  exact List.right_unique_forall₂' unique each (forall₂_positions lists)

/-! ## Words as tuples -/

theorem wordsOfLength_eq_tuples (alphabet : List Char) (length : Nat) :
    wordsOfLength alphabet length = tuples (List.replicate length alphabet) := by
  induction length with
  | zero => rfl
  | succ length ih => rw [wordsOfLength, ih, List.replicate_succ, tuples]

theorem EnumeratesTuples.words_eq {product : List (List Char) → List (List Char)}
    (h : EnumeratesTuples product) (alphabet : List Char) (maxLength : Nat) :
    wordsByTuples product alphabet maxLength = words alphabet maxLength := by
  have later : ∀ length ∈ List.range' 1 maxLength,
      product (List.replicate length alphabet) = wordsOfLength alphabet length := by
    intro length mem
    have pos : 1 ≤ length := (List.mem_range'_1.1 mem).1
    rw [wordsOfLength_eq_tuples]
    apply h.eq_tuples
    simp only [ne_eq, List.replicate_eq_nil_iff]
    omega
  rw [wordsByTuples, words, List.range_eq_range', List.range'_succ, List.flatMap_cons,
    List.flatMap_congr later]
  rfl

/-! ## The order of the words -/

theorem mem_words : word ∈ words alphabet maxLength ↔
    word.length ≤ maxLength ∧ ∀ c ∈ word, c ∈ alphabet := by
  simp only [words, List.mem_flatMap, List.mem_range, mem_wordsOfLength, Nat.lt_succ_iff]
  constructor
  · intro ⟨length, le, same, known⟩
    exact ⟨same ▸ le, known⟩
  · intro ⟨le, known⟩
    exact ⟨word.length, le, rfl, known⟩

theorem pairwise_idxOf (nodup : alphabet.Nodup) :
    alphabet.Pairwise fun a b => alphabet.idxOf a < alphabet.idxOf b := by
  apply List.pairwise_iff_getElem.2
  intro i j ltI ltJ less
  rw [nodup.idxOf_getElem, nodup.idxOf_getElem]
  exact less

theorem pairwise_wordsOfLength (nodup : alphabet.Nodup) (length : Nat) :
    (wordsOfLength alphabet length).Pairwise
      (List.Lex fun a b => alphabet.idxOf a < alphabet.idxOf b) := by
  induction length with
  | zero => exact List.pairwise_singleton _ _
  | succ length ih =>
      apply List.pairwise_flatMap.2
      constructor
      · intro c _
        apply List.pairwise_map.2
        apply ih.imp
        intro u v less
        exact .cons less
      · apply (pairwise_idxOf nodup).imp
        intro a b less u memU v memV
        obtain ⟨u', -, rfl⟩ := List.mem_map.1 memU
        obtain ⟨v', -, rfl⟩ := List.mem_map.1 memV
        exact .rel less

theorem pairwise_words (nodup : alphabet.Nodup) (maxLength : Nat) :
    (words alphabet maxLength).Pairwise (Precedes alphabet) := by
  apply List.pairwise_flatMap.2
  constructor
  · intro length _
    apply (pairwise_wordsOfLength nodup length).imp_of_mem
    intro u v memU memV less
    exact .of_lex ((mem_wordsOfLength.1 memU).1.trans (mem_wordsOfLength.1 memV).1.symm) less
  · apply List.pairwise_lt_range.imp
    intro short long less u memU v memV
    apply List.Shortlex.of_length_lt
    rw [(mem_wordsOfLength.1 memU).1, (mem_wordsOfLength.1 memV).1]
    exact less

theorem precedes_asymm (first : Precedes alphabet word other) :
    ¬Precedes alphabet other word := by
  have order : Std.Asymm fun a b : Char => alphabet.idxOf a < alphabet.idxOf b :=
    ⟨fun _ _ => Nat.lt_asymm⟩
  exact List.Shortlex.asymm.asymm word other first

theorem nodup_words (nodup : alphabet.Nodup) (maxLength : Nat) :
    (words alphabet maxLength).Nodup := by
  apply (pairwise_words nodup maxLength).imp
  intro u v less same
  subst same
  exact precedes_asymm less less

/-! ## The first word with a property -/

theorem findWord?_eq_find? (alphabet : List Char) (maxLength : Nat) (p : List Char → Bool) :
    findWord? alphabet maxLength p = (words alphabet maxLength).find? p := by
  rw [findWord?, words, List.find?_flatMap]

/-- In a list where each element comes before those behind it, the one that is
found is the first with the property. -/
theorem find?_eq_some_iff_first {xs : List α} {before : α → α → Prop} {p : α → Bool} {x : α}
    (ordered : xs.Pairwise before) (asymm : ∀ a b, before a b → ¬before b a) :
    xs.find? p = some x ↔
      x ∈ xs ∧ p x = true ∧ ∀ y ∈ xs, before y x → p y = false := by
  rw [List.find?_eq_some_iff_append]
  constructor
  · intro ⟨holds, front, back, split, lacking⟩
    subst split
    refine ⟨by simp, holds, ?_⟩
    intro y mem earlier
    have behind := (List.pairwise_append.1 ordered).2.1
    rcases List.mem_append.1 mem with inFront | inBack
    · simpa using lacking y inFront
    · -- Nothing from `x` on comes before it.
      rcases List.mem_cons.1 inBack with same | later
      · subst same
        exact absurd earlier (asymm y y earlier)
      · exact absurd earlier (asymm x y ((List.pairwise_cons.1 behind).1 y later))
  · intro ⟨mem, holds, first⟩
    obtain ⟨front, back, split⟩ := List.append_of_mem mem
    refine ⟨holds, front, back, split, ?_⟩
    subst split
    intro y inFront
    have earlier := (List.pairwise_append.1 ordered).2.2 y inFront x List.mem_cons_self
    simp [first y (by simp [inFront]) earlier]

namespace Recognizer

variable {a b : Recognizer}

theorem findDifference_eq_none_iff : a.findDifference b alphabet maxLength = none ↔
    ∀ word ∈ words alphabet maxLength, a.accepts word = b.accepts word := by
  simp [findDifference, findWord?_eq_find?]

theorem findDifference_eq_some_iff (nodup : alphabet.Nodup) :
    a.findDifference b alphabet maxLength = some word ↔
      word ∈ words alphabet maxLength ∧ a.accepts word ≠ b.accepts word ∧
        ∀ other ∈ words alphabet maxLength, Precedes alphabet other word →
          a.accepts other = b.accepts other := by
  rw [findDifference, findWord?_eq_find?, find?_eq_some_iff_first (pairwise_words nodup maxLength)
    fun _ _ => precedes_asymm]
  simp only [bne_iff_ne, bne_eq_false_iff_eq]

end Recognizer

/-- However the tuples are enumerated by position, the words up to a length are
all listed, each once, by length and then by position in the alphabet.  A
comparison finds nothing exactly if two recognizers agree on all of them, and
otherwise the first on which they disagree; they agree on all that are shorter. -/
theorem findDifference_finds_first {product : List (List Char) → List (List Char)}
    (enumerates : EnumeratesTuples product) (nodup : alphabet.Nodup) (maxLength : Nat) :
    wordsByTuples product alphabet maxLength = words alphabet maxLength ∧
    (words alphabet maxLength).Nodup ∧
    (∀ word, word ∈ words alphabet maxLength ↔
      word.length ≤ maxLength ∧ ∀ c ∈ word, c ∈ alphabet) ∧
    (words alphabet maxLength).Pairwise (Precedes alphabet) ∧
    ∀ a b : Recognizer,
      a.findDifference b alphabet maxLength =
        (wordsByTuples product alphabet maxLength).find?
          (fun word => a.accepts word != b.accepts word) ∧
      (a.findDifference b alphabet maxLength = none ↔
        ∀ word ∈ words alphabet maxLength, a.accepts word = b.accepts word) ∧
      ∀ word, (a.findDifference b alphabet maxLength = some word ↔
        word ∈ words alphabet maxLength ∧ a.accepts word ≠ b.accepts word ∧
          ∀ other ∈ words alphabet maxLength, Precedes alphabet other word →
            a.accepts other = b.accepts other) ∧
        (a.findDifference b alphabet maxLength = some word →
          ∀ other, other.length < word.length → (∀ c ∈ other, c ∈ alphabet) →
            a.accepts other = b.accepts other) := by
  have same := enumerates.words_eq alphabet maxLength
  refine ⟨same, nodup_words nodup maxLength, fun _ => mem_words, pairwise_words nodup maxLength,
    fun a b => ⟨?_, Recognizer.findDifference_eq_none_iff, fun word =>
      ⟨Recognizer.findDifference_eq_some_iff nodup, ?_⟩⟩⟩
  · rw [same]
    exact findWord?_eq_find? alphabet maxLength _
  · intro found other shorter known
    obtain ⟨mem, -, first⟩ := (Recognizer.findDifference_eq_some_iff nodup).1 found
    have short := (mem_words.1 mem).1
    exact first other (mem_words.2 ⟨by omega, known⟩) (.of_length_lt shorter)

def pairs : Recognizer := ⟨[], fun word => word.length == 2⟩

def nothing : Recognizer := ⟨[], fun _ => false⟩

/-- Where `b` stands in front of `a`, the first pair is `bb`. -/
theorem findDifference_finds_first_reversed :
    EnumeratesTuples (tuples (α := Char)) ∧ ['b', 'a'].Nodup ∧
      wordsByTuples tuples ['b', 'a'] 2 = words ['b', 'a'] 2 ∧
      pairs.findDifference nothing ['b', 'a'] 2 = some ['b', 'b'] ∧
      ∀ other, Precedes ['b', 'a'] other ['b', 'b'] → other ∈ words ['b', 'a'] 2 →
        pairs.accepts other = nothing.accepts other := by
  have nodup : ['b', 'a'].Nodup := by decide
  obtain ⟨same, -, -, -, compared⟩ := findDifference_finds_first enumeratesTuples_tuples nodup 2
  obtain ⟨-, -, found⟩ := compared pairs nothing
  have first : pairs.findDifference nothing ['b', 'a'] 2 = some ['b', 'b'] := by decide
  obtain ⟨-, -, before⟩ := (found ['b', 'b']).1.1 first
  exact ⟨enumeratesTuples_tuples, nodup, same, first, fun other less mem => before other mem less⟩

end RegularLanguages
