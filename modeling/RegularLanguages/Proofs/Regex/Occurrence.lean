import Mathlib.Order.CompletePartialOrder
import RegularLanguages.Regex.Language
import RegularLanguages.Regex.Occurrence

/-! # Words of occurrences and words of characters

When every occurrence of an expression is read by its label, the words over the
occurrences become the words of the expression (`spellings_occurrenceLanguage`).
Every expression has a word, and every occurrence stands in one
(`covers_occurrenceLanguage`). -/
set_option autoImplicit false
namespace RegularLanguages.Regex

/-- What words over positions can be read as, given the labels of the
positions. -/
def spellings (labelAt : Nat → Label) (language : Language Nat) : Language Char :=
  {w | ∃ ps ∈ language, List.Forall₂ (fun p c => (labelAt p).reads c = true) ps w}

section Spellings

variable (labelAt : Nat → Label) (l m : Language Nat)

theorem mem_spellings {labelAt : Nat → Label} {l : Language Nat} {w : List Char} :
    w ∈ spellings labelAt l ↔
      ∃ ps ∈ l, List.Forall₂ (fun p c => (labelAt p).reads c = true) ps w := Iff.rfl

theorem spellings_zero : spellings labelAt 0 = 0 := by
  ext w
  simp [mem_spellings, Language.notMem_zero]

theorem spellings_one : spellings labelAt 1 = 1 := by
  ext w
  simp [mem_spellings, Language.mem_one]

theorem spellings_add : spellings labelAt (l + m) = spellings labelAt l + spellings labelAt m := by
  ext w
  simp [mem_spellings, Language.mem_add, or_and_right, exists_or]

theorem spellings_mul : spellings labelAt (l * m) = spellings labelAt l * spellings labelAt m := by
  ext w
  constructor
  · rintro ⟨_, ⟨ps, first, qs, second, rfl⟩, reads⟩
    refine ⟨w.take ps.length, ⟨ps, first, ?_⟩, w.drop ps.length, ⟨qs, second, ?_⟩,
      List.take_append_drop ps.length w⟩
    · exact List.forall₂_take_append w ps qs reads.flip |>.flip
    · exact List.forall₂_drop_append w ps qs reads.flip |>.flip
  · rintro ⟨u, ⟨ps, first, readsFirst⟩, v, ⟨qs, second, readsSecond⟩, rfl⟩
    exact ⟨ps ++ qs, ⟨ps, first, qs, second, rfl⟩, List.rel_append readsFirst readsSecond⟩

theorem spellings_kstar :
    spellings labelAt (KStar.kstar l) = KStar.kstar (spellings labelAt l) := by
  ext w
  constructor
  · rintro ⟨_, member, reads⟩
    obtain ⟨words, rfl, each⟩ := Language.mem_kstar.1 member
    clear member
    induction words generalizing w with
    | nil =>
        obtain rfl : w = [] := by simpa using reads
        exact Language.nil_mem_kstar _
    | cons ps words ih =>
        have split : w ∈ spellings labelAt (l * {words.flatten}) :=
          ⟨_, ⟨ps, each ps List.mem_cons_self, words.flatten, rfl, rfl⟩, reads⟩
        rw [spellings_mul] at split
        obtain ⟨u, first, v, ⟨_, rfl, rest⟩, rfl⟩ := split
        have later := ih v (fun y mem => each y (List.mem_cons_of_mem ps mem)) rest
        exact (mul_kstar_le_kstar : spellings labelAt l * _ ≤ _) ⟨u, first, v, later, rfl⟩
  · intro member
    obtain ⟨words, rfl, each⟩ := Language.mem_kstar.1 member
    clear member
    induction words with
    | nil => exact ⟨[], Language.nil_mem_kstar l, .nil⟩
    | cons u words ih =>
        obtain ⟨ps, first, readsFirst⟩ := each u List.mem_cons_self
        obtain ⟨qs, later, readsLater⟩ := ih fun y mem => each y (List.mem_cons_of_mem u mem)
        exact ⟨ps ++ qs, (mul_kstar_le_kstar : l * _ ≤ _) ⟨ps, first, qs, later, rfl⟩,
          List.rel_append readsFirst readsLater⟩

end Spellings

def Carries (labelAt : Nat → Label) (base : Nat) (labels : List Label) : Prop :=
  ∀ i label, labels[i]? = some label → labelAt (base + i) = label

theorem Carries.left {labelAt : Nat → Label} {base : Nat} {labels others : List Label}
    (h : Carries labelAt base (labels ++ others)) : Carries labelAt base labels := by
  intro i label found
  have lt := (List.getElem?_eq_some_iff.1 found).1
  exact h i label (by rw [List.getElem?_append_left lt, found])

theorem Carries.right {labelAt : Nat → Label} {base : Nat} {labels others : List Label}
    (h : Carries labelAt base (labels ++ others)) :
    Carries labelAt (base + labels.length) others := by
  intro i label found
  rw [Nat.add_assoc]
  refine h (labels.length + i) label ?_
  rw [List.getElem?_append_right (Nat.le_add_right _ _), Nat.add_sub_cancel_left, found]

theorem spellings_single {labelAt : Nat → Label} {base : Nat} {label : Label} {l : Language Char}
    (carries : Carries labelAt base [label])
    (same : ∀ w, w ∈ l ↔ ∃ c, label.reads c = true ∧ w = [c]) :
    spellings labelAt {[base]} = l := by
  have known : labelAt base = label := carries 0 label rfl
  ext w
  rw [same, mem_spellings]
  constructor
  · rintro ⟨ps, rfl, reads⟩
    obtain ⟨c, rest, read, ended, rfl⟩ := List.forall₂_cons_left_iff.1 reads
    obtain rfl := List.forall₂_nil_left_iff.1 ended
    exact ⟨c, known ▸ read, rfl⟩
  · rintro ⟨c, reads, rfl⟩
    exact ⟨[base], rfl, .cons (known ▸ reads) .nil⟩

/-- Reading every occurrence by its label gives the words of the
expression. -/
theorem spellings_occurrenceLanguage (labelAt : Nat → Label) (r : Regex) :
    ∀ base, Carries labelAt base r.occurrences →
      spellings labelAt (occurrenceLanguage base r) = r.language := by
  induction r with
  | epsilon =>
      intro base _
      rw [occurrenceLanguage, language, spellings_one]
  | any =>
      intro base carries
      exact spellings_single carries fun w => by simp [language, mem_singletons, Label.reads]
  | lit c =>
      intro base carries
      refine spellings_single carries fun w => ?_
      change w = [c] ↔ _
      simp [Label.reads]
  | cat items each =>
      rw [occurrences]
      have sequence : ∀ base, Carries labelAt base (occurrencesOf items) →
          spellings labelAt (occurrenceSequence base items) = sequenceLanguage items := by
        induction items with
        | nil =>
            intro base _
            rw [occurrenceSequence, sequenceLanguage, spellings_one]
        | cons item rest ih =>
            intro base carries
            rw [occurrenceSequence, sequenceLanguage, spellings_mul,
              each item List.mem_cons_self base carries.left,
              ih (fun r mem => each r (List.mem_cons_of_mem item mem)) _ carries.right]
      intro base carries
      rw [occurrenceLanguage, language]
      exact sequence base carries
  | alt branches each =>
      rw [occurrences]
      have choice : ∀ base, Carries labelAt base (occurrencesOf branches) →
          spellings labelAt (occurrenceChoice base branches) = choiceLanguage branches := by
        induction branches with
        | nil =>
            intro base _
            rw [occurrenceChoice, choiceLanguage, spellings_zero]
        | cons branch rest ih =>
            intro base carries
            rw [occurrenceChoice, choiceLanguage, spellings_add,
              each branch List.mem_cons_self base carries.left,
              ih (fun r mem => each r (List.mem_cons_of_mem branch mem)) _ carries.right]
      intro base carries
      rw [occurrenceLanguage, language]
      cases branches with
      | nil => exact spellings_one labelAt
      | cons branch rest => exact choice base carries
  | star inner ih =>
      intro base carries
      rw [occurrenceLanguage, language, spellings_kstar, ih base carries]
  | plus inner ih =>
      intro base carries
      rw [occurrenceLanguage, language, spellings_mul, spellings_kstar, ih base carries]
  | opt inner ih =>
      intro base carries
      rw [occurrenceLanguage, language, spellings_add, spellings_one, ih base carries]

/-! ## Every occurrence is of use -/

theorem occurrenceLanguage_nonempty (r : Regex) : ∀ base, ∃ u, u ∈ occurrenceLanguage base r := by
  induction r with
  | epsilon => exact fun base => ⟨[], Language.nil_mem_one⟩
  | any => exact fun base => ⟨[base], rfl⟩
  | lit c => exact fun base => ⟨[base], rfl⟩
  | cat items each =>
      simp only [occurrenceLanguage]
      induction items with
      | nil => exact fun base => ⟨[], Language.nil_mem_one⟩
      | cons item rest ih =>
          intro base
          obtain ⟨u, first⟩ := each item List.mem_cons_self base
          obtain ⟨v, later⟩ := ih (fun r mem => each r (List.mem_cons_of_mem item mem))
            (base + item.occurrences.length)
          exact ⟨u ++ v, u, first, v, later, rfl⟩
  | alt branches each =>
      intro base
      rw [occurrenceLanguage]
      cases branches with
      | nil => exact ⟨[], Language.nil_mem_one⟩
      | cons branch rest =>
          obtain ⟨u, first⟩ := each branch List.mem_cons_self base
          exact ⟨u, .inl first⟩
  | star inner _ => exact fun base => ⟨[], Language.nil_mem_kstar _⟩
  | plus inner ih =>
      intro base
      obtain ⟨u, once⟩ := ih base
      exact ⟨u ++ [], u, once, [], Language.nil_mem_kstar _, rfl⟩
  | opt inner _ => exact fun base => ⟨[], .inl Language.nil_mem_one⟩

/-- Whether every position from `base` up to a number of positions stands in
some word. -/
def Covers (base size : Nat) (language : Language Nat) : Prop :=
  ∀ p, base ≤ p → p < base + size → ∃ u v, u ++ p :: v ∈ language

theorem Covers.mono {base size : Nat} {l m : Language Nat} (h : Covers base size l) (le : l ≤ m) :
    Covers base size m := by
  intro p low high
  obtain ⟨u, v, member⟩ := h p low high
  exact ⟨u, v, le member⟩

theorem Covers.mul {base size more : Nat} {l m : Language Nat} (hl : Covers base size l)
    (hm : Covers (base + size) more m) (wordL : ∃ u, u ∈ l) (wordM : ∃ u, u ∈ m) :
    Covers base (size + more) (l * m) := by
  intro p low high
  by_cases first : p < base + size
  · obtain ⟨u, v, member⟩ := hl p low first
    obtain ⟨t, after⟩ := wordM
    exact ⟨u, v ++ t, u ++ p :: v, member, t, after, by simp⟩
  · obtain ⟨u, v, member⟩ := hm p (Nat.not_lt.1 first) (by omega)
    obtain ⟨t, before⟩ := wordL
    exact ⟨t ++ u, v, t, before, u ++ p :: v, member, by simp⟩

theorem Covers.add {base size more : Nat} {l m : Language Nat} (hl : Covers base size l)
    (hm : Covers (base + size) more m) : Covers base (size + more) (l + m) := by
  intro p low high
  by_cases first : p < base + size
  · obtain ⟨u, v, member⟩ := hl p low first
    exact ⟨u, v, .inl member⟩
  · obtain ⟨u, v, member⟩ := hm p (Nat.not_lt.1 first) (by omega)
    exact ⟨u, v, .inr member⟩

theorem covers_nothing (base : Nat) (l : Language Nat) : Covers base 0 l :=
  fun _ low high => absurd high (Nat.not_lt.2 low)

theorem covers_single (base : Nat) : Covers base 1 {[base]} := by
  intro p low high
  obtain rfl : p = base := by omega
  exact ⟨[], [], rfl⟩

theorem covers_occurrenceLanguage (r : Regex) :
    ∀ base, Covers base r.occurrences.length (occurrenceLanguage base r) := by
  induction r with
  | epsilon => exact fun base => covers_nothing base _
  | any => exact covers_single
  | lit c => exact covers_single
  | cat items each =>
      simp only [occurrenceLanguage, occurrences]
      induction items with
      | nil => exact fun base => covers_nothing base _
      | cons item rest ih =>
          intro base
          rw [occurrencesOf, List.length_append, occurrenceSequence]
          refine (each item List.mem_cons_self base).mul
            (ih (fun r mem => each r (List.mem_cons_of_mem item mem)) _)
            (occurrenceLanguage_nonempty item base) ?_
          have rest := occurrenceLanguage_nonempty (cat rest) (base + item.occurrences.length)
          rwa [occurrenceLanguage] at rest
  | alt branches each =>
      have choice : ∀ base, Covers base (occurrencesOf branches).length
          (occurrenceChoice base branches) := by
        induction branches with
        | nil => exact fun base => covers_nothing base _
        | cons branch rest ih =>
            intro base
            rw [occurrencesOf, List.length_append, occurrenceChoice]
            exact (each branch List.mem_cons_self base).add
              (ih (fun r mem => each r (List.mem_cons_of_mem branch mem)) _)
      intro base
      rw [occurrenceLanguage, occurrences]
      cases branches with
      | nil => exact covers_nothing base _
      | cons branch rest => exact choice base
  | star inner ih =>
      intro base
      rw [occurrenceLanguage, occurrences]
      exact (ih base).mono le_kstar
  | plus inner ih =>
      intro base
      rw [occurrenceLanguage, occurrences]
      exact (ih base).mono fun u member => ⟨u, member, [], Language.nil_mem_kstar _, by simp⟩
  | opt inner ih =>
      intro base
      rw [occurrenceLanguage, occurrences]
      exact (ih base).mono fun u member => .inr member

end RegularLanguages.Regex
