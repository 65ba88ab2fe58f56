import RegularLanguages.Nfa.Position
import RegularLanguages.Proofs.Nfa.Thompson
import RegularLanguages.Proofs.Regex.Occurrence

/-! # The automaton of positions recognizes the language of an expression

A chain starts with a position that can come first, goes on by positions that
can follow, and ends with one that can come last; the empty chain is there if
the empty word matches.  The chains of the positions of an expression are its
words over occurrences (`describes_ofRegex`), and the paths of the automaton read
chains by their labels (`hasAcceptingPath_ofPositions`). -/
set_option autoImplicit false
namespace RegularLanguages

namespace Positions

inductive Tail (ps : Positions) : Nat → List Nat → Prop where
  | stop {p : Nat} : p ∈ ps.last → Tail ps p []
  | next {p q : Nat} {rest : List Nat} : (p, q) ∈ ps.follow → Tail ps q rest → Tail ps p (q :: rest)

def tails (ps : Positions) (p : Nat) : Language Nat := {u | Tail ps p u}

def chains (ps : Positions) : Language Nat :=
  {u | (u = [] ∧ ps.nullable = true) ∨ ∃ p ∈ ps.first, ∃ rest, u = p :: rest ∧ Tail ps p rest}

structure Within (base : Nat) (ps : Positions) : Prop where
  first : ∀ p ∈ ps.first, base ≤ p ∧ p < base + ps.labels.length
  last : ∀ p ∈ ps.last, base ≤ p ∧ p < base + ps.labels.length
  follow : ∀ e ∈ ps.follow, (base ≤ e.1 ∧ e.1 < base + ps.labels.length) ∧
    base ≤ e.2 ∧ e.2 < base + ps.labels.length

variable {a b ps : Positions} {base p q : Nat} {u v rest : List Nat}

theorem mem_chains : u ∈ ps.chains ↔
    (u = [] ∧ ps.nullable = true) ∨ ∃ p ∈ ps.first, ∃ rest, u = p :: rest ∧ Tail ps p rest :=
  Iff.rfl

theorem nil_mem_chains : [] ∈ ps.chains ↔ ps.nullable = true := by
  simp [mem_chains]

theorem cons_mem_chains : p :: rest ∈ ps.chains ↔ p ∈ ps.first ∧ Tail ps p rest := by
  rw [mem_chains]
  constructor
  · rintro (⟨impossible, -⟩ | ⟨q, mem, rest, same, tail⟩)
    · cases impossible
    · cases same
      exact ⟨mem, tail⟩
  · rintro ⟨mem, tail⟩
    exact .inr ⟨p, mem, rest, rfl, tail⟩

theorem Tail.extend (h : Tail a p u) (sub : a.follow ⊆ b.follow)
    (onward : ∀ q ∈ a.last, Tail b q rest) : Tail b p (u ++ rest) := by
  induction h with
  | stop mem => exact onward _ mem
  | next step _ ih => exact .next (sub step) ih

theorem Tail.mono (h : Tail a p u) (sub : a.follow ⊆ b.follow) (last : a.last ⊆ b.last) :
    Tail b p u := by
  simpa using h.extend sub fun q mem => .stop (last mem)

theorem Tail.suffix : ∀ {u : List Nat} {p : Nat}, Tail ps p (u ++ q :: v) → Tail ps q v
  | [], _, .next _ tail => tail
  | _ :: _, _, .next _ tail => tail.suffix

theorem Tail.follows : ∀ {u : List Nat} {p : Nat}, Tail ps p (u ++ q :: v) →
    ∃ before, (before, q) ∈ ps.follow
  | [], p, .next step _ => ⟨p, step⟩
  | _ :: _, _, .next _ tail => tail.follows

theorem follows_of_mem_chains (chain : u ++ q :: v ∈ ps.chains) :
    q ∈ ps.first ∨ ∃ p, (p, q) ∈ ps.follow := by
  cases u with
  | nil => exact .inl (cons_mem_chains.1 chain).1
  | cons first rest => exact .inr (cons_mem_chains.1 chain).2.follows

theorem tail_of_mem_chains (chain : u ++ p :: v ∈ ps.chains) : Tail ps p v := by
  cases u with
  | nil => exact (cons_mem_chains.1 chain).2
  | cons first rest => exact (cons_mem_chains.1 chain).2.suffix

theorem mem_pairs {before after : List Nat} :
    (p, q) ∈ pairs before after ↔ p ∈ before ∧ q ∈ after := by
  simp [pairs]

/-! ## One after another -/

theorem mem_first_followedBy :
    p ∈ (a.followedBy b).first ↔ p ∈ a.first ∨ (a.nullable = true ∧ p ∈ b.first) := by
  cases nullable : a.nullable <;> simp [followedBy, nullable]

theorem mem_last_followedBy :
    p ∈ (a.followedBy b).last ↔ p ∈ b.last ∨ (b.nullable = true ∧ p ∈ a.last) := by
  cases nullable : b.nullable <;> simp [followedBy, nullable, or_comm]

theorem mem_follow_followedBy : (p, q) ∈ (a.followedBy b).follow ↔
    (p, q) ∈ a.follow ∨ (p, q) ∈ b.follow ∨ (p ∈ a.last ∧ q ∈ b.first) := by
  simp [followedBy, mem_pairs]

theorem Within.followedBy (ha : Within base a) (hb : Within (base + a.labels.length) b) :
    Within base (a.followedBy b) := by
  have total : (a.followedBy b).labels.length = a.labels.length + b.labels.length :=
    List.length_append
  refine ⟨?_, ?_, ?_⟩
  · intro p mem
    rcases mem_first_followedBy.1 mem with inA | ⟨-, inB⟩
    · have bounds := ha.first p inA
      omega
    · have bounds := hb.first p inB
      omega
  · intro p mem
    rcases mem_last_followedBy.1 mem with inB | ⟨-, inA⟩
    · have bounds := hb.last p inB
      omega
    · have bounds := ha.last p inA
      omega
  · rintro ⟨p, q⟩ mem
    rcases mem_follow_followedBy.1 mem with inA | inB | ⟨last, first⟩
    · have bounds := ha.follow _ inA
      omega
    · have bounds := hb.follow _ inB
      omega
    · have before := ha.last p last
      have after := hb.first q first
      omega

/-- From a position of the first part a tail goes through the rest of the
first part and then through the second, from one of the second through the
rest of that. -/
theorem Tail.of_followedBy (ha : Within base a) (hb : Within (base + a.labels.length) b)
    (h : Tail (a.followedBy b) p u) :
    (p < base + a.labels.length → u ∈ a.tails p * b.chains) ∧
      (base + a.labels.length ≤ p → Tail b p u) := by
  induction h with
  | @stop p mem =>
      rcases mem_last_followedBy.1 mem with inB | ⟨nullable, inA⟩
      · have bounds := hb.last p inB
        exact ⟨fun low => by omega, fun _ => .stop inB⟩
      · have bounds := ha.last p inA
        exact ⟨fun _ => ⟨[], .stop inA, [], nil_mem_chains.2 nullable, rfl⟩, fun high => by omega⟩
  | @next p q rest step tail ih =>
      rcases mem_follow_followedBy.1 step with inA | inB | ⟨last, first⟩
      · have bounds := ha.follow _ inA
        obtain ⟨u, before, v, after, rfl⟩ := ih.1 bounds.2.2
        exact ⟨fun _ => ⟨q :: u, .next inA before, v, after, rfl⟩, fun high => by omega⟩
      · have bounds := hb.follow _ inB
        exact ⟨fun low => by omega, fun _ => .next inB (ih.2 bounds.2.1)⟩
      · have before := ha.last p last
        have after := hb.first q first
        have chain : q :: rest ∈ b.chains := cons_mem_chains.2 ⟨first, ih.2 after.1⟩
        exact ⟨fun _ => ⟨[], .stop last, q :: rest, chain, rfl⟩, fun high => by omega⟩

theorem Tail.followedBy (h : Tail a p u) (chain : v ∈ b.chains) :
    Tail (a.followedBy b) p (u ++ v) := by
  refine h.extend (fun e mem => mem_follow_followedBy.2 (.inl mem)) fun q last => ?_
  cases v with
  | nil => exact .stop (mem_last_followedBy.2 (.inr ⟨nil_mem_chains.1 chain, last⟩))
  | cons first rest =>
      obtain ⟨mem, tail⟩ := cons_mem_chains.1 chain
      exact .next (mem_follow_followedBy.2 (.inr (.inr ⟨last, mem⟩)))
        (tail.mono (fun e inB => mem_follow_followedBy.2 (.inr (.inl inB)))
          fun e inB => mem_last_followedBy.2 (.inl inB))

theorem chains_followedBy (ha : Within base a) (hb : Within (base + a.labels.length) b) :
    (a.followedBy b).chains = a.chains * b.chains := by
  have nullable : (a.followedBy b).nullable = true ↔ a.nullable = true ∧ b.nullable = true :=
    Bool.and_eq_true_iff
  ext u
  constructor
  · intro chain
    cases u with
    | nil =>
        have both := nullable.1 (nil_mem_chains.1 chain)
        exact ⟨[], nil_mem_chains.2 both.1, [], nil_mem_chains.2 both.2, rfl⟩
    | cons p rest =>
        obtain ⟨first, tail⟩ := cons_mem_chains.1 chain
        rcases mem_first_followedBy.1 first with inA | ⟨nullableA, inB⟩
        · obtain ⟨u, before, v, after, rfl⟩ := (tail.of_followedBy ha hb).1 (ha.first p inA).2
          exact ⟨p :: u, cons_mem_chains.2 ⟨inA, before⟩, v, after, rfl⟩
        · have onward := (tail.of_followedBy ha hb).2 (hb.first p inB).1
          exact ⟨[], nil_mem_chains.2 nullableA, p :: rest, cons_mem_chains.2 ⟨inB, onward⟩, rfl⟩
  · rintro ⟨u, before, v, after, rfl⟩
    cases u with
    | cons p rest =>
        obtain ⟨first, tail⟩ := cons_mem_chains.1 before
        exact cons_mem_chains.2 ⟨mem_first_followedBy.2 (.inl first), tail.followedBy after⟩
    | nil =>
        have nullableA := nil_mem_chains.1 before
        cases v with
        | nil => exact nil_mem_chains.2 (nullable.2 ⟨nullableA, nil_mem_chains.1 after⟩)
        | cons p rest =>
            obtain ⟨first, tail⟩ := cons_mem_chains.1 after
            refine cons_mem_chains.2 ⟨mem_first_followedBy.2 (.inr ⟨nullableA, first⟩), ?_⟩
            exact tail.mono (fun e inB => mem_follow_followedBy.2 (.inr (.inl inB)))
              fun e inB => mem_last_followedBy.2 (.inl inB)

/-! ## One or another -/

theorem mem_first_orElse : p ∈ (a.orElse b).first ↔ p ∈ a.first ∨ p ∈ b.first := by
  simp [orElse]

theorem mem_last_orElse : p ∈ (a.orElse b).last ↔ p ∈ a.last ∨ p ∈ b.last := by
  simp [orElse]

theorem mem_follow_orElse {e : Nat × Nat} :
    e ∈ (a.orElse b).follow ↔ e ∈ a.follow ∨ e ∈ b.follow := by
  simp [orElse]

theorem Within.orElse (ha : Within base a) (hb : Within (base + a.labels.length) b) :
    Within base (a.orElse b) := by
  have total : (a.orElse b).labels.length = a.labels.length + b.labels.length :=
    List.length_append
  refine ⟨?_, ?_, ?_⟩
  · intro p mem
    rcases mem_first_orElse.1 mem with inA | inB
    · have bounds := ha.first p inA
      omega
    · have bounds := hb.first p inB
      omega
  · intro p mem
    rcases mem_last_orElse.1 mem with inA | inB
    · have bounds := ha.last p inA
      omega
    · have bounds := hb.last p inB
      omega
  · intro e mem
    rcases mem_follow_orElse.1 mem with inA | inB
    · have bounds := ha.follow e inA
      omega
    · have bounds := hb.follow e inB
      omega

theorem Tail.of_orElse (ha : Within base a) (hb : Within (base + a.labels.length) b)
    (h : Tail (a.orElse b) p u) :
    (p < base + a.labels.length → Tail a p u) ∧ (base + a.labels.length ≤ p → Tail b p u) := by
  induction h with
  | @stop p mem =>
      rcases mem_last_orElse.1 mem with inA | inB
      · have bounds := ha.last p inA
        exact ⟨fun _ => .stop inA, fun high => by omega⟩
      · have bounds := hb.last p inB
        exact ⟨fun low => by omega, fun _ => .stop inB⟩
  | @next p q rest step tail ih =>
      rcases mem_follow_orElse.1 step with inA | inB
      · have bounds := ha.follow _ inA
        exact ⟨fun _ => .next inA (ih.1 bounds.2.2), fun high => by omega⟩
      · have bounds := hb.follow _ inB
        exact ⟨fun low => by omega, fun _ => .next inB (ih.2 bounds.2.1)⟩

theorem chains_orElse (ha : Within base a) (hb : Within (base + a.labels.length) b) :
    (a.orElse b).chains = a.chains + b.chains := by
  have nullable : (a.orElse b).nullable = true ↔ a.nullable = true ∨ b.nullable = true :=
    Bool.or_eq_true_iff
  ext u
  rw [Language.mem_add]
  cases u with
  | nil => rw [nil_mem_chains, nil_mem_chains, nil_mem_chains, nullable]
  | cons p rest =>
      rw [cons_mem_chains, cons_mem_chains, cons_mem_chains, mem_first_orElse]
      constructor
      · rintro ⟨inA | inB, tail⟩
        · exact .inl ⟨inA, (tail.of_orElse ha hb).1 (ha.first p inA).2⟩
        · exact .inr ⟨inB, (tail.of_orElse ha hb).2 (hb.first p inB).1⟩
      · rintro (⟨inA, tail⟩ | ⟨inB, tail⟩)
        · exact ⟨.inl inA, tail.mono (fun e mem => mem_follow_orElse.2 (.inl mem))
            fun e mem => mem_last_orElse.2 (.inl mem)⟩
        · exact ⟨.inr inB, tail.mono (fun e mem => mem_follow_orElse.2 (.inr mem))
            fun e mem => mem_last_orElse.2 (.inr mem)⟩

/-! ## Several times -/

theorem mem_follow_repeated :
    (p, q) ∈ a.repeated.follow ↔ (p, q) ∈ a.follow ∨ (p ∈ a.last ∧ q ∈ a.first) := by
  simp [repeated, mem_pairs]

theorem Within.repeated (ha : Within base a) : Within base a.repeated := by
  refine ⟨ha.first, ha.last, ?_⟩
  rintro ⟨p, q⟩ mem
  rcases mem_follow_repeated.1 mem with inside | ⟨last, first⟩
  · exact ha.follow _ inside
  · exact ⟨ha.last p last, ha.first q first⟩

theorem Tail.of_repeated (h : Tail a.repeated p u) : u ∈ a.tails p * KStar.kstar a.chains := by
  induction h with
  | stop mem => exact ⟨[], .stop mem, [], Language.nil_mem_kstar _, rfl⟩
  | @next p q rest step tail ih =>
      obtain ⟨u, before, v, after, rfl⟩ := ih
      rcases mem_follow_repeated.1 step with inside | ⟨last, first⟩
      · exact ⟨q :: u, .next inside before, v, after, rfl⟩
      · have again : q :: u ++ v ∈ KStar.kstar a.chains :=
          (mul_kstar_le_kstar : a.chains * _ ≤ _)
            ⟨q :: u, cons_mem_chains.2 ⟨first, before⟩, v, after, rfl⟩
        exact ⟨[], .stop last, _, again, rfl⟩

theorem Tail.repeated (h : Tail a p u) (chain : v ∈ KStar.kstar a.chains) :
    Tail a.repeated p (u ++ v) := by
  obtain ⟨words, rfl, each⟩ := Language.mem_kstar_iff_exists_nonempty.1 chain
  have sub : a.follow ⊆ a.repeated.follow := fun e mem => mem_follow_repeated.2 (.inl mem)
  clear chain
  induction words generalizing p u with
  | nil => exact h.extend sub fun q last => .stop last
  | cons word words ih =>
      refine h.extend sub fun q last => ?_
      obtain ⟨member, nonempty⟩ := each word List.mem_cons_self
      cases word with
      | nil => exact absurd rfl nonempty
      | cons first rest =>
          obtain ⟨mem, tail⟩ := cons_mem_chains.1 member
          exact .next (mem_follow_repeated.2 (.inr ⟨last, mem⟩))
            (ih tail fun y inside => each y (List.mem_cons_of_mem _ inside))

theorem chains_repeated (a : Positions) :
    a.repeated.chains = a.chains * KStar.kstar a.chains := by
  ext u
  constructor
  · intro chain
    cases u with
    | nil =>
        have nullable : a.nullable = true :=
          (nil_mem_chains : _ ↔ a.repeated.nullable = true).1 chain
        exact ⟨[], nil_mem_chains.2 nullable, [], Language.nil_mem_kstar _, rfl⟩
    | cons p rest =>
        obtain ⟨first, tail⟩ := cons_mem_chains.1 chain
        obtain ⟨u, before, v, after, rfl⟩ := tail.of_repeated
        exact ⟨p :: u, cons_mem_chains.2 ⟨first, before⟩, v, after, rfl⟩
  · rintro ⟨u, before, v, after, rfl⟩
    cases u with
    | cons p rest =>
        obtain ⟨first, tail⟩ := cons_mem_chains.1 before
        exact cons_mem_chains.2 ⟨first, tail.repeated after⟩
    | nil =>
        have nullable := nil_mem_chains.1 before
        obtain ⟨words, rfl, each⟩ := Language.mem_kstar_iff_exists_nonempty.1 after
        cases words with
        | nil => exact nil_mem_chains.2 nullable
        | cons word words =>
            obtain ⟨member, nonempty⟩ := each word List.mem_cons_self
            have later : words.flatten ∈ KStar.kstar a.chains :=
              Language.join_mem_kstar fun y mem => (each y (List.mem_cons_of_mem word mem)).1
            cases word with
            | nil => exact absurd rfl nonempty
            | cons p rest =>
                obtain ⟨first, tail⟩ := cons_mem_chains.1 member
                exact cons_mem_chains.2 ⟨first, tail.repeated later⟩

/-! ## Once at most, and single positions -/

theorem chains_optional (a : Positions) : a.optional.chains = 1 + a.chains := by
  ext u
  rw [Language.mem_add, Language.mem_one]
  cases u with
  | nil => simp [nil_mem_chains, optional]
  | cons p rest =>
      have same : Tail a.optional p rest ↔ Tail a p rest :=
        ⟨fun h => h.mono (List.Subset.refl _) (List.Subset.refl _),
          fun h => h.mono (List.Subset.refl _) (List.Subset.refl _)⟩
      rw [cons_mem_chains, cons_mem_chains, same]
      simp [optional]

theorem Within.optional (ha : Within base a) : Within base a.optional :=
  ⟨ha.first, ha.last, ha.follow⟩

theorem within_none (base : Nat) (nullable : Bool) : Within base (none nullable) := by
  constructor <;> simp [none]

theorem chains_none_true : (none true).chains = 1 := by
  ext u
  rw [Language.mem_one]
  cases u <;> simp [mem_chains, none]

theorem chains_none_false : (none false).chains = 0 := by
  ext u
  refine ⟨?_, fun impossible => absurd impossible (Language.notMem_zero u)⟩
  rintro (⟨-, impossible⟩ | ⟨p, impossible, -⟩)
  · cases impossible
  · cases impossible

theorem within_single (base : Nat) (label : Label) : Within base (single base label) := by
  constructor <;> simp [single]

theorem chains_single (base : Nat) (label : Label) : (single base label).chains = {[base]} := by
  ext u
  constructor
  · rintro (⟨-, impossible⟩ | ⟨p, first, rest, rfl, tail⟩)
    · cases impossible
    · obtain rfl : p = base := List.mem_singleton.1 first
      cases tail with
      | stop => rfl
      | next step _ => cases step
  · rintro rfl
    exact cons_mem_chains.2 ⟨List.mem_singleton_self base, .stop (List.mem_singleton_self base)⟩

/-! ## Expressions -/

structure Describes (base : Nat) (ps : Positions) (labels : List Label) (words : Language Nat) :
    Prop where
  within : Within base ps
  labels_eq : ps.labels = labels
  chains_eq : ps.chains = words

theorem Describes.followedBy {l m : List Label} {before after : Language Nat}
    (ha : Describes base a l before) (hb : Describes (base + l.length) b m after) :
    Describes base (a.followedBy b) (l ++ m) (before * after) := by
  have shifted := hb.within
  rw [← ha.labels_eq] at shifted
  refine ⟨ha.within.followedBy shifted, ?_, ?_⟩
  · exact congr (congrArg (· ++ ·) ha.labels_eq) hb.labels_eq
  · rw [chains_followedBy ha.within shifted, ha.chains_eq, hb.chains_eq]

theorem Describes.orElse {l m : List Label} {before after : Language Nat}
    (ha : Describes base a l before) (hb : Describes (base + l.length) b m after) :
    Describes base (a.orElse b) (l ++ m) (before + after) := by
  have shifted := hb.within
  rw [← ha.labels_eq] at shifted
  refine ⟨ha.within.orElse shifted, ?_, ?_⟩
  · exact congr (congrArg (· ++ ·) ha.labels_eq) hb.labels_eq
  · rw [chains_orElse ha.within shifted, ha.chains_eq, hb.chains_eq]

theorem describes_ofItems (items : List Regex)
    (each : ∀ item ∈ items, ∀ base,
      Describes base (ofRegex base item) item.occurrences (Regex.occurrenceLanguage base item)) :
    ∀ base, Describes base (ofItems base items) (Regex.occurrencesOf items)
      (Regex.occurrenceSequence base items) := by
  induction items with
  | nil => exact fun base => ⟨within_none base true, rfl, chains_none_true⟩
  | cons item rest ih =>
      intro base
      have first := each item List.mem_cons_self base
      rw [ofItems, Regex.occurrencesOf, Regex.occurrenceSequence, first.labels_eq]
      exact first.followedBy (ih (fun r mem => each r (List.mem_cons_of_mem item mem)) _)

theorem describes_ofBranches (branches : List Regex)
    (each : ∀ branch ∈ branches, ∀ base,
      Describes base (ofRegex base branch) branch.occurrences
        (Regex.occurrenceLanguage base branch)) :
    ∀ base, Describes base (ofBranches base branches) (Regex.occurrencesOf branches)
      (Regex.occurrenceChoice base branches) := by
  induction branches with
  | nil => exact fun base => ⟨within_none base false, rfl, chains_none_false⟩
  | cons branch rest ih =>
      intro base
      have first := each branch List.mem_cons_self base
      rw [ofBranches, Regex.occurrencesOf, Regex.occurrenceChoice, first.labels_eq]
      exact first.orElse (ih (fun r mem => each r (List.mem_cons_of_mem branch mem)) _)

/-- The chains of the positions of an expression are its words over
occurrences. -/
theorem describes_ofRegex (r : Regex) : ∀ base,
    Describes base (ofRegex base r) r.occurrences (Regex.occurrenceLanguage base r) := by
  induction r with
  | epsilon => exact fun base => ⟨within_none base true, rfl, chains_none_true⟩
  | any => exact fun base => ⟨within_single base .any, rfl, chains_single base .any⟩
  | lit c => exact fun base => ⟨within_single base (.symbol c), rfl, chains_single base _⟩
  | cat items each =>
      intro base
      rw [ofRegex, Regex.occurrences, Regex.occurrenceLanguage]
      exact describes_ofItems items each base
  | alt branches each =>
      intro base
      rw [ofRegex, Regex.occurrences, Regex.occurrenceLanguage]
      cases branches with
      | nil => exact ⟨within_none base true, rfl, chains_none_true⟩
      | cons branch rest => exact describes_ofBranches (branch :: rest) each base
  | star inner ih =>
      intro base
      rw [ofRegex, Regex.occurrences, Regex.occurrenceLanguage]
      refine ⟨(ih base).within.repeated.optional, (ih base).labels_eq, ?_⟩
      rw [chains_optional, chains_repeated, (ih base).chains_eq,
        Language.one_add_self_mul_kstar_eq_kstar]
  | plus inner ih =>
      intro base
      rw [ofRegex, Regex.occurrences, Regex.occurrenceLanguage]
      refine ⟨(ih base).within.repeated, (ih base).labels_eq, ?_⟩
      rw [chains_repeated, (ih base).chains_eq]
  | opt inner ih =>
      intro base
      rw [ofRegex, Regex.occurrences, Regex.occurrenceLanguage]
      refine ⟨(ih base).within.optional, (ih base).labels_eq, ?_⟩
      rw [chains_optional, (ih base).chains_eq]

/-! ## Edges between positions -/

theorem mem_edgesTo {source : Nat} {positions : List Nat} {e : Nfa.Edge} :
    e ∈ ps.edgesTo source positions ↔
      e.source = source ∧ e.target ∈ positions ∧ ps.labels[e.target - 1]? = some e.label := by
  obtain ⟨p, label, q⟩ := e
  simp only [edgesTo, List.mem_filterMap, OrderedSet.mem_ofList, Option.map_eq_some_iff,
    Nfa.Edge.mk.injEq]
  constructor
  · rintro ⟨_, mem, _, found, rfl, rfl, rfl⟩
    exact ⟨rfl, mem, found⟩
  · rintro ⟨rfl, mem, found⟩
    exact ⟨q, mem, label, found, rfl, rfl, rfl⟩

theorem mem_after : q ∈ ps.after p ↔ (p, q) ∈ ps.follow := by
  simp [after]

/-- What a position reads; a number that is none reads nothing. -/
def labelAt (ps : Positions) (p : Nat) : Label := ps.labels[p - 1]?.getD .epsilon

end Positions

/-! ## The automaton -/

namespace Nfa

open Positions (Tail)

variable {r : Regex} {p q : Nat} {w : List Char} {label : Label}

theorem mem_edges_ofPositions : ⟨p, label, q⟩ ∈ (ofPositions r).edges ↔
    (Positions.ofRegex 1 r).labels[q - 1]? = some label ∧
      ((p = 0 ∧ q ∈ (Positions.ofRegex 1 r).first) ∨ (p, q) ∈ (Positions.ofRegex 1 r).follow) := by
  have within := (Positions.describes_ofRegex r 1).within
  simp only [ofPositions, ofEdges, List.mem_append, List.mem_flatMap, Positions.mem_edgesTo,
    Positions.mem_after, List.mem_range'_1]
  constructor
  · rintro (⟨rfl, first, found⟩ | ⟨_, -, rfl, follows, found⟩)
    · exact ⟨found, .inl ⟨rfl, first⟩⟩
    · exact ⟨found, .inr follows⟩
  · rintro ⟨found, ⟨rfl, first⟩ | follows⟩
    · exact .inl ⟨rfl, first, found⟩
    · exact .inr ⟨p, (within.follow _ follows).1, rfl, follows, found⟩

theorem isAccepting_ofPositions : (ofPositions r).isAccepting q = true ↔
    q ∈ (Positions.ofRegex 1 r).last ∨ (q = 0 ∧ (Positions.ofRegex 1 r).nullable = true) := by
  cases nullable : (Positions.ofRegex 1 r).nullable <;>
    simp [isAccepting, ofPositions, ofEdges, nullable, or_comm]

theorem size_ofPositions (r : Regex) : (ofPositions r).size = r.occurrences.length + 1 := by
  rw [← (Positions.describes_ofRegex r 1).labels_eq]
  rfl

theorem epsilon_not_mem_ofPositions : ⟨p, .epsilon, q⟩ ∉ (ofPositions r).edges := by
  intro edge
  have mem := List.mem_of_getElem? (mem_edges_ofPositions.1 edge).1
  rw [(Positions.describes_ofRegex r 1).labels_eq] at mem
  exact Regex.epsilon_not_mem_occurrences r mem

theorem target_ofPositions (edge : ⟨p, label, q⟩ ∈ (ofPositions r).edges) :
    1 ≤ q ∧ q < 1 + r.occurrences.length := by
  have describes := Positions.describes_ofRegex r 1
  rw [← describes.labels_eq]
  rcases (mem_edges_ofPositions.1 edge).2 with ⟨-, first⟩ | follows
  · exact describes.within.first q first
  · exact (describes.within.follow _ follows).2

theorem labelAt_of_mem (edge : ⟨p, label, q⟩ ∈ (ofPositions r).edges) :
    (Positions.ofRegex 1 r).labelAt q = label := by
  rw [Positions.labelAt, (mem_edges_ofPositions.1 edge).1, Option.getD_some]

theorem exists_label (bounds : 1 ≤ q ∧ q < 1 + (Positions.ofRegex 1 r).labels.length) :
    ∃ label, (Positions.ofRegex 1 r).labels[q - 1]? = some label :=
  ⟨_, List.getElem?_eq_getElem (by omega)⟩

theorem exists_reads (found : (Positions.ofRegex 1 r).labels[q - 1]? = some label) :
    ∃ c, label.reads c = true := by
  have mem := List.mem_of_getElem? found
  rw [(Positions.describes_ofRegex r 1).labels_eq] at mem
  cases label with
  | symbol c => exact ⟨c, beq_self_eq_true c⟩
  | any => exact ⟨'a', rfl⟩
  | epsilon => exact absurd mem (Regex.epsilon_not_mem_occurrences r)

theorem exists_path_iff_exists_tail (pos : 1 ≤ p) :
    (∃ t, (ofPositions r).isAccepting t = true ∧ Path (ofPositions r).edges p w t) ↔
      ∃ u, Tail (Positions.ofRegex 1 r) p u ∧
        List.Forall₂ (fun p c => ((Positions.ofRegex 1 r).labelAt p).reads c = true) u w := by
  constructor
  · rintro ⟨t, accepting, path⟩
    induction path with
    | stay p =>
        rcases isAccepting_ofPositions.1 accepting with last | ⟨rfl, -⟩
        · exact ⟨[], .stop last, .nil⟩
        · exact absurd pos (by decide)
    | silent edge _ _ => exact absurd edge epsilon_not_mem_ofPositions
    | @read p q t label c w edge reads _ ih =>
        obtain ⟨u, tail, spelled⟩ := ih (target_ofPositions edge).1 accepting
        rcases (mem_edges_ofPositions.1 edge).2 with ⟨rfl, -⟩ | follows
        · exact absurd pos (by decide)
        · exact ⟨q :: u, .next follows tail, .cons (labelAt_of_mem edge ▸ reads) spelled⟩
  · rintro ⟨u, tail, spelled⟩
    induction tail generalizing w with
    | @stop p last =>
        obtain rfl := List.forall₂_nil_left_iff.1 spelled
        exact ⟨p, isAccepting_ofPositions.2 (.inl last), .stay p⟩
    | @next p q rest follows _ ih =>
        obtain ⟨c, v, reads, later, rfl⟩ := List.forall₂_cons_left_iff.1 spelled
        have bounds := ((Positions.describes_ofRegex r 1).within.follow _ follows).2
        obtain ⟨label, found⟩ := exists_label bounds
        have edge : ⟨p, label, q⟩ ∈ (ofPositions r).edges :=
          mem_edges_ofPositions.2 ⟨found, .inr follows⟩
        obtain ⟨t, accepting, path⟩ := ih bounds.1 later
        exact ⟨t, accepting, .read edge (labelAt_of_mem edge ▸ reads) path⟩

theorem hasAcceptingPath_iff_chains : (ofPositions r).HasAcceptingPath w ↔
    w ∈ Regex.spellings (Positions.ofRegex 1 r).labelAt (Positions.ofRegex 1 r).chains := by
  have within := (Positions.describes_ofRegex r 1).within
  constructor
  · rintro ⟨t, accepting, path⟩
    cases path with
    | stay =>
        rcases isAccepting_ofPositions.1 accepting with last | ⟨-, nullable⟩
        · exact absurd (within.last 0 last).1 (by decide)
        · exact ⟨[], Positions.nil_mem_chains.2 nullable, .nil⟩
    | silent edge _ => exact absurd edge epsilon_not_mem_ofPositions
    | @read _ q _ label c w edge reads rest =>
        have pos := (target_ofPositions edge).1
        obtain ⟨u, tail, spelled⟩ := (exists_path_iff_exists_tail pos).1 ⟨t, accepting, rest⟩
        rcases (mem_edges_ofPositions.1 edge).2 with ⟨-, first⟩ | follows
        · exact ⟨q :: u, Positions.cons_mem_chains.2 ⟨first, tail⟩,
            .cons (labelAt_of_mem edge ▸ reads) spelled⟩
        · exact absurd (within.follow _ follows).1.1 (Nat.not_succ_le_zero 0)
  · rintro ⟨u, chain, spelled⟩
    cases u with
    | nil =>
        obtain rfl := List.forall₂_nil_left_iff.1 spelled
        have nullable := Positions.nil_mem_chains.1 chain
        exact ⟨0, isAccepting_ofPositions.2 (.inr ⟨rfl, nullable⟩), .stay 0⟩
    | cons q rest =>
        obtain ⟨first, tail⟩ := Positions.cons_mem_chains.1 chain
        obtain ⟨c, v, reads, later, rfl⟩ := List.forall₂_cons_left_iff.1 spelled
        have bounds := within.first q first
        obtain ⟨label, found⟩ := exists_label bounds
        have edge : ⟨0, label, q⟩ ∈ (ofPositions r).edges :=
          mem_edges_ofPositions.2 ⟨found, .inl ⟨rfl, first⟩⟩
        obtain ⟨t, accepting, path⟩ :=
          (exists_path_iff_exists_tail bounds.1).2 ⟨rest, tail, later⟩
        exact ⟨t, accepting, .read edge (labelAt_of_mem edge ▸ reads) path⟩

theorem carries_labelAt (r : Regex) :
    Regex.Carries (Positions.ofRegex 1 r).labelAt 1 r.occurrences := by
  intro i label found
  rw [Positions.labelAt, (Positions.describes_ofRegex r 1).labels_eq, Nat.add_sub_cancel_left,
    found, Option.getD_some]

theorem hasAcceptingPath_ofPositions : (ofPositions r).HasAcceptingPath w ↔ w ∈ r.language := by
  rw [hasAcceptingPath_iff_chains, (Positions.describes_ofRegex r 1).chains_eq,
    Regex.spellings_occurrenceLanguage _ r 1 (carries_labelAt r)]

theorem wellFormed_ofPositions (r : Regex) : WellFormed (ofPositions r) := by
  have describes := Positions.describes_ofRegex r 1
  have within := describes.within
  have length := congrArg List.length describes.labels_eq
  refine
    { size_pos := ?_
      ends := ?_
      accepting := ?_
      increasing := OrderedSet.increasing_ofList _
      symbols := ?_ }
  · rw [size_ofPositions]
    exact Nat.succ_pos _
  · rintro ⟨p, label, q⟩ edge
    have target := target_ofPositions edge
    rw [size_ofPositions]
    rcases (mem_edges_ofPositions.1 edge).2 with ⟨rfl, -⟩ | follows
    · dsimp only
      omega
    · have source := (within.follow _ follows).1
      dsimp only at source ⊢
      omega
  · intro q mem
    rw [size_ofPositions]
    rcases isAccepting_ofPositions.1 (List.contains_iff_mem.2 mem) with last | ⟨rfl, -⟩
    · have bounds := within.last q last
      omega
    · exact Nat.succ_pos _
  · intro e edge c names
    rw [ofPositions, ofEdges, OrderedSet.mem_ofList, List.mem_filterMap]
    exact ⟨e, edge, names⟩

/-! ## Every position is of use -/

theorem accepts_ofPositions : (ofPositions r).accepts w = true ↔ w ∈ r.language :=
  (wellFormed_ofPositions r).accepts_iff_hasAcceptingPath.trans hasAcceptingPath_ofPositions

theorem exists_edge_ofPositions (found : (Positions.ofRegex 1 r).labels[q - 1]? = some label)
    (bounds : 1 ≤ q ∧ q < 1 + r.occurrences.length) :
    ∃ p, ⟨p, label, q⟩ ∈ (ofPositions r).edges := by
  obtain ⟨u, v, word⟩ := Regex.covers_occurrenceLanguage r 1 q bounds.1 bounds.2
  rw [← (Positions.describes_ofRegex r 1).chains_eq] at word
  rcases Positions.follows_of_mem_chains word with first | ⟨p, follows⟩
  · exact ⟨0, mem_edges_ofPositions.2 ⟨found, .inl ⟨rfl, first⟩⟩⟩
  · exact ⟨p, mem_edges_ofPositions.2 ⟨found, .inr follows⟩⟩

theorem alphabet_ofPositions (r : Regex) : (ofPositions r).alphabet = r.literals := by
  have labels := (Positions.describes_ofRegex r 1).labels_eq
  have literals : OrderedSet.Increasing r.literals := OrderedSet.increasing_ofList _
  refine (OrderedSet.increasing_ofList _).ext literals fun c => ?_
  rw [OrderedSet.mem_ofList, Regex.mem_literals, List.mem_filterMap]
  constructor
  · rintro ⟨⟨p, label, q⟩, edge, names⟩
    obtain rfl := Regex.symbol?_eq_some.1 names
    rw [← labels]
    exact List.mem_of_getElem? (mem_edges_ofPositions.1 edge).1
  · intro mem
    obtain ⟨i, lt, same⟩ := List.mem_iff_getElem.1 mem
    have found : (Positions.ofRegex 1 r).labels[i + 1 - 1]? = some (.symbol c) := by
      rw [labels, Nat.add_sub_cancel, List.getElem?_eq_getElem lt, same]
    obtain ⟨p, edge⟩ := exists_edge_ofPositions found ⟨Nat.le_add_left 1 i, by omega⟩
    exact ⟨_, edge, rfl⟩

theorem exists_path_of_tail {u : List Nat} (tail : Tail (Positions.ofRegex 1 r) p u) :
    ∃ w t, (ofPositions r).isAccepting t = true ∧ Path (ofPositions r).edges p w t := by
  have describes := Positions.describes_ofRegex r 1
  induction tail with
  | @stop p last => exact ⟨[], p, isAccepting_ofPositions.2 (.inl last), .stay p⟩
  | @next p q rest follows _ ih =>
      obtain ⟨label, found⟩ := exists_label (describes.within.follow _ follows).2
      obtain ⟨c, reads⟩ := exists_reads found
      obtain ⟨w, t, accepting, path⟩ := ih
      exact ⟨c :: w, t, accepting, .read (mem_edges_ofPositions.2 ⟨found, .inr follows⟩) reads path⟩

theorem productive_ofPositions (r : Regex) : Productive (ofPositions r) := by
  have describes := Positions.describes_ofRegex r 1
  intro q below
  rw [size_ofPositions] at below
  cases q with
  | zero =>
      obtain ⟨u, word⟩ := Regex.occurrenceLanguage_nonempty r 1
      rw [← describes.chains_eq] at word
      cases u with
      | nil =>
          have nullable := Positions.nil_mem_chains.1 word
          exact ⟨[], 0, isAccepting_ofPositions.2 (.inr ⟨rfl, nullable⟩), .stay 0⟩
      | cons p rest =>
          obtain ⟨first, tail⟩ := Positions.cons_mem_chains.1 word
          obtain ⟨label, found⟩ := exists_label (describes.within.first p first)
          obtain ⟨c, reads⟩ := exists_reads found
          obtain ⟨w, t, accepting, path⟩ := exists_path_of_tail tail
          have edge := mem_edges_ofPositions.2 ⟨found, .inl ⟨rfl, first⟩⟩
          exact ⟨c :: w, t, accepting, .read edge reads path⟩
  | succ q =>
      obtain ⟨u, v, word⟩ :=
        Regex.covers_occurrenceLanguage r 1 (q + 1) (Nat.le_add_left 1 q) (by omega)
      rw [← describes.chains_eq] at word
      exact exists_path_of_tail (Positions.tail_of_mem_chains word)

end Nfa

end RegularLanguages
