import RegularLanguages.Nfa.Thompson
import RegularLanguages.Proofs.Nfa.Run
import RegularLanguages.Proofs.Regex.Literal
import RegularLanguages.Regex.Language

/-! # Thompson's construction recognizes the language of an expression

A fragment over the states from `base` up is proper for a language when its
edges stay among its states, none enters the entry or leaves the exit, the
paths from the entry to the exit spell the language, and every state lies on
such a path.  The fragments of the characters are proper, and putting proper
fragments one after the other (`Proper.seq`), side by side (`Branching.cons`)
or around themselves (`Proper.wrap`) gives proper fragments again.

That paths spell nothing else is shown by a stable language for every state: a
state inside an operand has the words from there to the exit of the operand,
continued by what the operator can still read after it. -/
set_option autoImplicit false
namespace RegularLanguages

open Nfa (Path wordsTo)

def Label.language (label : Label) : Language Char := {w | label.Spells w}

namespace Fragment

structure Proper (base : Nat) (f : Fragment) (language : Language Char) : Prop where
  entry_mem : base ≤ f.entry ∧ f.entry < f.next
  exit_mem : base ≤ f.exit ∧ f.exit < f.next
  apart : f.entry ≠ f.exit
  ends : ∀ e ∈ f.edges,
    (base ≤ e.source ∧ e.source < f.next) ∧ base ≤ e.target ∧ e.target < f.next
  intoEntry : ∀ e ∈ f.edges, e.target ≠ f.entry
  fromExit : ∀ e ∈ f.edges, e.source ≠ f.exit
  spells : ∀ w, Path f.edges f.entry w f.exit ↔ w ∈ language
  reached : ∀ q, base ≤ q → q < f.next → ∃ u, Path f.edges f.entry u q
  leaves : ∀ q, base ≤ q → q < f.next → ∃ v, Path f.edges q v f.exit

variable {base : Nat} {f g : Fragment} {language other : Language Char} {p : Nat}
  {w : List Char}

namespace Proper

theorem source_mem (h : Proper base f language) (path : w ∈ wordsTo f.edges f.exit p) :
    base ≤ p ∧ p < f.next := by
  rcases Nfa.Path.source path with rfl | ⟨e, edge, rfl⟩
  · exact h.exit_mem
  · exact (h.ends e edge).1

theorem base_lt (h : Proper base f language) : base < f.next :=
  Nat.lt_of_le_of_lt h.entry_mem.1 h.entry_mem.2

theorem passes (h : Proper base f language) : ∃ w, Path f.edges f.entry w f.exit :=
  h.leaves f.entry h.entry_mem.1 h.entry_mem.2

theorem congr (h : Proper base f language) (same : language = other) : Proper base f other :=
  same ▸ h

end Proper

/-! ## Single edges -/

theorem spells_of_path_ofLabel {label : Label}
    (path : Path (ofLabel base label).edges base w (base + 1)) : label.Spells w := by
  let stay : Nat → Language Char := fun p =>
    {w | (p = base ∧ label.Spells w) ∨ (p = base + 1 ∧ w = [])}
  have stable : Path.Stable (ofLabel base label).edges stay := by
    intro e member s w spells rest
    obtain rfl : e = ⟨base, label, base + 1⟩ := by simpa [ofLabel] using member
    rcases rest with ⟨loop, -⟩ | ⟨-, rfl⟩
    · exact absurd loop (Nat.succ_ne_self base)
    · exact .inl ⟨rfl, by simpa using spells⟩
  rcases Path.mem_of_stable stable path (.inr ⟨rfl, rfl⟩) with ⟨-, spells⟩ | ⟨loop, -⟩
  · exact spells
  · exact absurd loop.symm (Nat.succ_ne_self base)

theorem proper_ofLabel (base : Nat) {label : Label} (readable : ∃ w, label.Spells w) :
    Proper base (ofLabel base label) label.language := by
  have only : ∀ e ∈ (ofLabel base label).edges, e = ⟨base, label, base + 1⟩ := by
    simp [ofLabel]
  have edge : (⟨base, label, base + 1⟩ : Nfa.Edge) ∈ (ofLabel base label).edges := by
    simp [ofLabel]
  have across : ∀ w, label.Spells w → Path (ofLabel base label).edges base w (base + 1) := by
    intro w spells
    simpa using Path.follow edge spells (.stay (base + 1))
  obtain ⟨v, spelled⟩ := readable
  refine
    { entry_mem := ⟨Nat.le_refl base, Nat.lt_add_of_pos_right (by decide)⟩
      exit_mem := ⟨Nat.le_succ base, Nat.lt_succ_self (base + 1)⟩
      apart := Nat.ne_of_lt (Nat.lt_succ_self base)
      ends := ?_
      intoEntry := ?_
      fromExit := ?_
      spells := ?_
      reached := ?_
      leaves := ?_ }
  · intro e member
    rw [only e member]
    simp [ofLabel]
  · intro e member
    rw [only e member]
    simp [ofLabel]
  · intro e member
    rw [only e member]
    simp [ofLabel]
  · intro w
    constructor
    · exact spells_of_path_ofLabel
    · exact across w
  · intro q low high
    obtain rfl | rfl : q = base ∨ q = base + 1 := by
      simp only [ofLabel] at high
      omega
    · exact ⟨[], .stay q⟩
    · exact ⟨v, across v spelled⟩
  · intro q low high
    obtain rfl | rfl : q = base ∨ q = base + 1 := by
      simp only [ofLabel] at high
      omega
    · exact ⟨v, across v spelled⟩
    · exact ⟨[], .stay (base + 1)⟩

theorem proper_epsilon (base : Nat) : Proper base (ofLabel base .epsilon) 1 := by
  refine (proper_ofLabel base ⟨[], Label.spells_epsilon.2 rfl⟩).congr ?_
  ext w
  exact Label.spells_epsilon.trans (Language.mem_one w).symm

theorem proper_any (base : Nat) : Proper base (ofLabel base .any) Regex.singletons := by
  refine (proper_ofLabel base ⟨['a'], .inr ⟨'a', rfl, rfl⟩⟩).congr ?_
  ext w
  change Label.any.Spells w ↔ ∃ c, w = [c]
  simp [Label.Spells, Label.reads]

theorem proper_symbol (base : Nat) (c : Char) : Proper base (ofLabel base (.symbol c)) {[c]} := by
  refine (proper_ofLabel base ⟨[c], .inr ⟨c, by simp [Label.reads], rfl⟩⟩).congr ?_
  ext w
  change (Label.symbol c).Spells w ↔ w = [c]
  simp [Label.Spells, Label.reads]

/-! ## One after the other -/

def seq (f g : Fragment) : Fragment :=
  ⟨f.entry, g.exit, ⟨f.exit, .epsilon, g.entry⟩ :: (f.edges ++ g.edges), g.next⟩

theorem mem_seq_edges {e : Nfa.Edge} : e ∈ (seq f g).edges ↔
    e = ⟨f.exit, .epsilon, g.entry⟩ ∨ e ∈ f.edges ∨ e ∈ g.edges := by
  simp [seq]

theorem Proper.seq_sound (hf : Proper base f language) (hg : Proper f.next g other)
    (path : Path (Fragment.seq f g).edges f.entry w g.exit) : w ∈ language * other := by
  let stay : Nat → Language Char := fun p =>
    wordsTo g.edges g.exit p + wordsTo f.edges f.exit p * other
  have stable : Path.Stable (Fragment.seq f g).edges stay := by
    intro e member s w spells rest
    rcases mem_seq_edges.1 member with rfl | inF | inG
    · obtain rfl := Label.spells_epsilon.1 spells
      rcases rest with inside | ⟨u, before, v, -, -⟩
      · exact .inr ⟨[], .stay f.exit, w, (hg.spells w).1 inside, rfl⟩
      · exact absurd (hf.source_mem before).2 (Nat.not_lt.2 hg.entry_mem.1)
    · rcases rest with inside | ⟨u, before, v, after, rfl⟩
      · exact absurd (hg.source_mem inside).1 (Nat.not_le.2 (hf.ends e inF).2.2)
      · exact .inr ⟨s ++ u, Path.follow inF spells before, v, after, List.append_assoc s u v⟩
    · rcases rest with inside | ⟨u, before, v, -, -⟩
      · exact .inl (Path.follow inG spells inside)
      · exact absurd (hf.source_mem before).2 (Nat.not_lt.2 (hg.ends e inG).2.1)
  rcases Path.mem_of_stable stable path (.inl (.stay g.exit)) with
    inside | ⟨u, before, v, after, rfl⟩
  · exact absurd (hg.source_mem inside).1 (Nat.not_le.2 hf.entry_mem.2)
  · exact ⟨u, (hf.spells u).1 before, v, after, rfl⟩

theorem Proper.seq (hf : Proper base f language) (hg : Proper f.next g other) :
    Proper base (seq f g) (language * other) := by
  have first : f.edges ⊆ (Fragment.seq f g).edges := fun e h => mem_seq_edges.2 (.inr (.inl h))
  have second : g.edges ⊆ (Fragment.seq f g).edges := fun e h => mem_seq_edges.2 (.inr (.inr h))
  have bridge : (⟨f.exit, .epsilon, g.entry⟩ : Nfa.Edge) ∈ (Fragment.seq f g).edges :=
    mem_seq_edges.2 (.inl rfl)
  have fLow := hf.base_lt
  have gLow := hg.base_lt
  have fEntry := hf.entry_mem
  have fExit := hf.exit_mem
  have gEntry := hg.entry_mem
  have gExit := hg.exit_mem
  refine
    { entry_mem := ⟨fEntry.1, Nat.lt_trans fEntry.2 gLow⟩
      exit_mem := ⟨Nat.le_trans fLow.le gExit.1, gExit.2⟩
      apart := Nat.ne_of_lt (Nat.lt_of_lt_of_le fEntry.2 gExit.1)
      ends := ?_
      intoEntry := ?_
      fromExit := ?_
      spells := ?_
      reached := ?_
      leaves := ?_ }
  · intro e member
    rcases mem_seq_edges.1 member with rfl | inF | inG
    · simp only [Fragment.seq]
      omega
    · have bounds := hf.ends e inF
      simp only [Fragment.seq]
      omega
    · have bounds := hg.ends e inG
      simp only [Fragment.seq]
      omega
  · intro e member
    rcases mem_seq_edges.1 member with rfl | inF | inG
    · exact Nat.ne_of_gt (Nat.lt_of_lt_of_le fEntry.2 gEntry.1)
    · exact hf.intoEntry e inF
    · exact Nat.ne_of_gt (Nat.lt_of_lt_of_le fEntry.2 (hg.ends e inG).2.1)
  · intro e member
    rcases mem_seq_edges.1 member with rfl | inF | inG
    · exact Nat.ne_of_lt (Nat.lt_of_lt_of_le fExit.2 gExit.1)
    · exact Nat.ne_of_lt (Nat.lt_of_lt_of_le (hf.ends e inF).1.2 gExit.1)
    · exact hg.fromExit e inG
  · intro w
    constructor
    · exact hf.seq_sound hg
    · rintro ⟨u, before, v, after, rfl⟩
      exact ((hf.spells u).2 before).mono first |>.append
        (.silent bridge (((hg.spells v).2 after).mono second))
  · intro q low high
    by_cases inF : q < f.next
    · obtain ⟨u, path⟩ := hf.reached q low inF
      exact ⟨u, path.mono first⟩
    · obtain ⟨u, path⟩ := hg.reached q (Nat.not_lt.1 inF) high
      obtain ⟨t, through⟩ := hf.passes
      exact ⟨t ++ u, (through.mono first).append (.silent bridge (path.mono second))⟩
  · intro q low high
    by_cases inF : q < f.next
    · obtain ⟨v, path⟩ := hf.leaves q low inF
      obtain ⟨t, through⟩ := hg.passes
      exact ⟨v ++ t, (path.mono first).append (.silent bridge (through.mono second))⟩
    · obtain ⟨v, path⟩ := hg.leaves q (Nat.not_lt.1 inF) high
      exact ⟨v, path.mono second⟩

/-! ## Around a fragment -/

/-- A fragment between a new entry and a new exit, which may be passed by or
passed through several times. -/
def wrap (skip loop : Bool) (base : Nat) (f : Fragment) : Fragment :=
  ⟨base, base + 1,
    ⟨base, .epsilon, f.entry⟩ :: ⟨f.exit, .epsilon, base + 1⟩ ::
      ((if skip then [⟨base, .epsilon, base + 1⟩] else []) ++
        ((if loop then [⟨f.exit, .epsilon, f.entry⟩] else []) ++ f.edges)),
    f.next⟩

/-- What can be read after the operand has been passed once. -/
def repeats (loop : Bool) (language : Language Char) : Language Char :=
  if loop then KStar.kstar language else 1

def wrapLanguage (skip loop : Bool) (language : Language Char) : Language Char :=
  (if skip then 1 else 0) + language * repeats loop language

variable {skip loop : Bool}

theorem nil_mem_repeats (loop : Bool) (language : Language Char) : [] ∈ repeats loop language := by
  cases loop with
  | true => exact Language.nil_mem_kstar language
  | false => exact Language.nil_mem_one

theorem mem_wrap_edges {e : Nfa.Edge} : e ∈ (wrap skip loop base f).edges ↔
    e = ⟨base, .epsilon, f.entry⟩ ∨ e = ⟨f.exit, .epsilon, base + 1⟩ ∨
      (skip = true ∧ e = ⟨base, .epsilon, base + 1⟩) ∨
      (loop = true ∧ e = ⟨f.exit, .epsilon, f.entry⟩) ∨ e ∈ f.edges := by
  cases skip <;> cases loop <;> simp [wrap]

/-- A path around a fragment skips it or passes it, as often as that is
allowed. -/
theorem Proper.wrap_sound (hf : Proper (base + 2) f language)
    (path : Path (wrap skip loop base f).edges base w (base + 1)) :
    w ∈ wrapLanguage skip loop language := by
  have entryLow := hf.entry_mem.1
  let stay : Nat → Language Char := fun p =>
    {w | (p = base ∧ w ∈ wrapLanguage skip loop language) ∨ (p = base + 1 ∧ w = []) ∨
      w ∈ wordsTo f.edges f.exit p * repeats loop language}
  have fromEntry : ∀ w ∈ stay f.entry, w ∈ language * repeats loop language := by
    rintro w (⟨low, -⟩ | ⟨low, -⟩ | ⟨u, before, v, after, rfl⟩)
    · omega
    · omega
    · exact ⟨u, (hf.spells u).1 before, v, after, rfl⟩
  have fromExit : ∀ w ∈ stay (base + 1), w = [] := by
    rintro w (⟨low, -⟩ | ⟨-, nil⟩ | ⟨u, before, -, -, -⟩)
    · omega
    · exact nil
    · exact absurd (hf.source_mem before).1 (by omega)
  have stable : Path.Stable (wrap skip loop base f).edges stay := by
    intro e member s w spells rest
    rcases mem_wrap_edges.1 member with rfl | rfl | ⟨rfl, rfl⟩ | ⟨rfl, rfl⟩ | inF
    · obtain rfl := Label.spells_epsilon.1 spells
      exact .inl ⟨rfl, .inr (fromEntry w rest)⟩
    · obtain rfl := Label.spells_epsilon.1 spells
      obtain rfl := fromExit w rest
      exact .inr (.inr ⟨[], .stay f.exit, [], nil_mem_repeats loop language, rfl⟩)
    · obtain rfl := Label.spells_epsilon.1 spells
      obtain rfl := fromExit w rest
      exact .inl ⟨rfl, .inl Language.nil_mem_one⟩
    · obtain rfl := Label.spells_epsilon.1 spells
      have again : w ∈ KStar.kstar language :=
        (mul_kstar_le_kstar : language * KStar.kstar language ≤ _) (fromEntry w rest)
      exact .inr (.inr ⟨[], .stay f.exit, w, again, rfl⟩)
    · have bounds := (hf.ends e inF).2.1
      rcases rest with ⟨low, -⟩ | ⟨low, -⟩ | ⟨u, before, v, after, rfl⟩
      · omega
      · omega
      · exact .inr (.inr
          ⟨s ++ u, Path.follow inF spells before, v, after, List.append_assoc s u v⟩)
  rcases Path.mem_of_stable stable path (.inr (.inl ⟨rfl, rfl⟩)) with
    ⟨-, spelled⟩ | ⟨loop, -⟩ | ⟨u, before, -, -, -⟩
  · exact spelled
  · omega
  · exact absurd (hf.source_mem before).1 (by omega)

theorem Proper.wrap_complete (hf : Proper (base + 2) f language)
    (mem : w ∈ wrapLanguage skip loop language) :
    Path (wrap skip loop base f).edges base w (base + 1) := by
  have inner : f.edges ⊆ (wrap skip loop base f).edges := fun e h =>
    mem_wrap_edges.2 (.inr (.inr (.inr (.inr h))))
  have enter : (⟨base, .epsilon, f.entry⟩ : Nfa.Edge) ∈ (wrap skip loop base f).edges :=
    mem_wrap_edges.2 (.inl rfl)
  have leave : (⟨f.exit, .epsilon, base + 1⟩ : Nfa.Edge) ∈ (wrap skip loop base f).edges :=
    mem_wrap_edges.2 (.inr (.inl rfl))
  have goOn : ∀ v ∈ repeats loop language,
      Path (wrap skip loop base f).edges f.exit v (base + 1) := by
    intro v mem
    cases loop with
    | false =>
        obtain rfl : v = [] := (Language.mem_one v).1 mem
        exact .silent leave (.stay (base + 1))
    | true =>
        obtain ⟨words, rfl, each⟩ := Language.mem_kstar.1 mem
        have again : (⟨f.exit, .epsilon, f.entry⟩ : Nfa.Edge) ∈ (wrap skip true base f).edges :=
          mem_wrap_edges.2 (.inr (.inr (.inr (.inl ⟨rfl, rfl⟩))))
        clear mem
        induction words with
        | nil => exact .silent leave (.stay (base + 1))
        | cons u words ih =>
            have rest := ih fun y member => each y (List.mem_cons_of_mem u member)
            have once := (hf.spells u).2 (each u List.mem_cons_self)
            exact .silent again ((once.mono inner).append rest)
  rcases mem with skipped | ⟨u, before, v, after, rfl⟩
  · cases skip with
    | false => exact absurd skipped (Language.notMem_zero w)
    | true =>
        obtain rfl : w = [] := (Language.mem_one w).1 skipped
        have across : (⟨base, .epsilon, base + 1⟩ : Nfa.Edge) ∈ (wrap true loop base f).edges :=
          mem_wrap_edges.2 (.inr (.inr (.inl ⟨rfl, rfl⟩)))
        exact .silent across (.stay (base + 1))
  · exact .silent enter ((((hf.spells u).2 before).mono inner).append (goOn v after))

theorem Proper.wrap_ends (hf : Proper (base + 2) f language) (e : Nfa.Edge)
    (member : e ∈ (Fragment.wrap skip loop base f).edges) :
    ((base ≤ e.source ∧ e.source < f.next) ∧ base ≤ e.target ∧ e.target < f.next) ∧
      e.target ≠ base ∧ e.source ≠ base + 1 := by
  have low := hf.base_lt
  have entry := hf.entry_mem
  have exit := hf.exit_mem
  rcases mem_wrap_edges.1 member with rfl | rfl | ⟨-, rfl⟩ | ⟨-, rfl⟩ | inF
  · dsimp only
    omega
  · dsimp only
    omega
  · dsimp only
    omega
  · dsimp only
    omega
  · have bounds := hf.ends e inF
    omega

theorem Proper.wrap (hf : Proper (base + 2) f language) (skip loop : Bool) :
    Proper base (wrap skip loop base f) (wrapLanguage skip loop language) := by
  have inner : f.edges ⊆ (Fragment.wrap skip loop base f).edges := fun e h =>
    mem_wrap_edges.2 (.inr (.inr (.inr (.inr h))))
  have enter : (⟨base, .epsilon, f.entry⟩ : Nfa.Edge) ∈ (Fragment.wrap skip loop base f).edges :=
    mem_wrap_edges.2 (.inl rfl)
  have leave : (⟨f.exit, .epsilon, base + 1⟩ : Nfa.Edge) ∈
      (Fragment.wrap skip loop base f).edges := mem_wrap_edges.2 (.inr (.inl rfl))
  have low := hf.base_lt
  have entry := hf.entry_mem
  have exit := hf.exit_mem
  obtain ⟨t, through⟩ := hf.passes
  have across : Path (Fragment.wrap skip loop base f).edges base (t ++ []) (base + 1) :=
    .silent enter ((through.mono inner).append (.silent leave (.stay (base + 1))))
  refine
    { entry_mem := by simp only [Fragment.wrap]; omega
      exit_mem := by simp only [Fragment.wrap]; omega
      apart := Nat.ne_of_lt (Nat.lt_succ_self base)
      ends := fun e member => (hf.wrap_ends e member).1
      intoEntry := fun e member => (hf.wrap_ends e member).2.1
      fromExit := fun e member => (hf.wrap_ends e member).2.2
      spells := fun w => ⟨hf.wrap_sound, hf.wrap_complete⟩
      reached := ?_
      leaves := ?_ }
  · intro q above below
    obtain rfl | rfl | inside : q = base ∨ q = base + 1 ∨ base + 2 ≤ q := by omega
    · exact ⟨[], .stay q⟩
    · exact ⟨_, across⟩
    · obtain ⟨u, path⟩ := hf.reached q inside below
      exact ⟨u, .silent enter (path.mono inner)⟩
  · intro q above below
    obtain rfl | rfl | inside : q = base ∨ q = base + 1 ∨ base + 2 ≤ q := by omega
    · exact ⟨_, across⟩
    · exact ⟨[], .stay (base + 1)⟩
    · obtain ⟨v, path⟩ := hf.leaves q inside below
      exact ⟨v ++ [], (path.mono inner).append (.silent leave (.stay (base + 1)))⟩

/-! ## Side by side -/

/-- Fragments side by side between an entry and an exit that lie below their
states. -/
structure Branching (entry exit base : Nat) (g : Fragment) (language : Language Char) : Prop where
  entry_eq : g.entry = entry
  exit_eq : g.exit = exit
  base_le : base ≤ g.next
  sources : ∀ e ∈ g.edges, e.source = entry ∨ (base ≤ e.source ∧ e.source < g.next)
  targets : ∀ e ∈ g.edges, e.target = exit ∨ (base ≤ e.target ∧ e.target < g.next)
  spells : ∀ w, Path g.edges entry w exit ↔ w ∈ language
  reached : ∀ q, base ≤ q → q < g.next → ∃ u, Path g.edges entry u q
  leaves : ∀ q, base ≤ q → q < g.next → ∃ v, Path g.edges q v exit

def beside (entry exit : Nat) (f g : Fragment) : Fragment :=
  ⟨entry, exit, ⟨entry, .epsilon, f.entry⟩ :: ⟨f.exit, .epsilon, exit⟩ :: (f.edges ++ g.edges),
    g.next⟩

variable {entry exit : Nat}

theorem mem_beside_edges {e : Nfa.Edge} : e ∈ (beside entry exit f g).edges ↔
    e = ⟨entry, .epsilon, f.entry⟩ ∨ e = ⟨f.exit, .epsilon, exit⟩ ∨ e ∈ f.edges ∨ e ∈ g.edges := by
  simp [beside]

theorem Branching.nil (base : Nat) (apart : entry ≠ exit) :
    Branching entry exit base ⟨entry, exit, [], base⟩ 0 where
  entry_eq := rfl
  exit_eq := rfl
  base_le := Nat.le_refl base
  sources := by simp
  targets := by simp
  spells := by
    intro w
    constructor
    · intro path
      rcases Nfa.Path.source path with same | ⟨e, edge, -⟩
      · exact absurd same apart
      · exact absurd edge List.not_mem_nil
    · intro impossible
      exact absurd impossible (Language.notMem_zero w)
  reached := fun q low high => absurd high (Nat.not_lt.2 low)
  leaves := fun q low high => absurd high (Nat.not_lt.2 low)

theorem Branching.source_mem (hg : Branching entry exit base g other)
    (path : w ∈ wordsTo g.edges exit p) :
    p = exit ∨ p = entry ∨ (base ≤ p ∧ p < g.next) := by
  rcases Nfa.Path.source path with same | ⟨e, edge, rfl⟩
  · exact .inl same
  · exact .inr (hg.sources e edge)

theorem Branching.nil_of_path_exit (hg : Branching entry exit base g other) (low : exit < base)
    (apart : entry ≠ exit) (path : Path g.edges exit w exit) : w = [] := by
  have noEdge : ∀ e ∈ g.edges, e.source ≠ exit := by
    intro e edge same
    rcases hg.sources e edge with isEntry | inside
    · exact apart (isEntry.symm.trans same)
    · omega
  cases path with
  | stay => rfl
  | silent edge _ => exact absurd rfl (noEdge _ edge)
  | read edge _ _ => exact absurd rfl (noEdge _ edge)

theorem Branching.cons_sound (hf : Proper base f language)
    (hg : Branching entry exit f.next g other) (entryLow : entry < base) (exitLow : exit < base)
    (apart : entry ≠ exit) (path : Path (beside entry exit f g).edges entry w exit) :
    w ∈ language + other := by
  have fLow := hf.base_lt
  let stay : Nat → Language Char := fun p =>
    {w | (p = entry ∧ w ∈ language + other) ∨ w ∈ wordsTo g.edges exit p ∨
      w ∈ wordsTo f.edges f.exit p}
  -- The fragment and the branches share no state, so its states have its words only.
  have inFragment : ∀ q, base ≤ q → q < f.next → ∀ w ∈ stay q, w ∈ wordsTo f.edges f.exit q := by
    rintro q low high w (⟨rfl, -⟩ | inside | inside)
    · omega
    · rcases hg.source_mem inside with rfl | rfl | bounds
      · omega
      · omega
      · omega
    · exact inside
  have stable : Path.Stable (beside entry exit f g).edges stay := by
    intro e member s w spells rest
    rcases mem_beside_edges.1 member with rfl | rfl | inF | inG
    · obtain rfl := Label.spells_epsilon.1 spells
      have inside := inFragment f.entry hf.entry_mem.1 hf.entry_mem.2 w rest
      exact .inl ⟨rfl, .inl ((hf.spells w).1 inside)⟩
    · obtain rfl := Label.spells_epsilon.1 spells
      rcases rest with ⟨same, -⟩ | inside | inside
      · exact absurd same.symm apart
      · obtain rfl := hg.nil_of_path_exit (Nat.lt_trans exitLow fLow) apart inside
        exact .inr (.inr (.stay f.exit))
      · exact absurd (hf.source_mem inside).1 (Nat.not_le.2 exitLow)
    · have bounds := (hf.ends e inF).2
      exact .inr (.inr (Path.follow inF spells (inFragment _ bounds.1 bounds.2 w rest)))
    · have target := hg.targets e inG
      rcases rest with ⟨same, -⟩ | inside | inside
      · omega
      · exact .inr (.inl (Path.follow inG spells inside))
      · have bounds := hf.source_mem inside
        omega
  rcases Path.mem_of_stable stable path (.inr (.inl (.stay exit))) with
    ⟨-, spelled⟩ | inside | inside
  · exact spelled
  · exact .inr ((hg.spells w).1 inside)
  · exact absurd (hf.source_mem inside).1 (Nat.not_le.2 entryLow)

theorem Branching.cons (hf : Proper base f language) (hg : Branching entry exit f.next g other)
    (entryLow : entry < base) (exitLow : exit < base) (apart : entry ≠ exit) :
    Branching entry exit base (beside entry exit f g) (language + other) := by
  have fLow := hf.base_lt
  have gLow := hg.base_le
  have first : f.edges ⊆ (beside entry exit f g).edges := fun e h =>
    mem_beside_edges.2 (.inr (.inr (.inl h)))
  have second : g.edges ⊆ (beside entry exit f g).edges := fun e h =>
    mem_beside_edges.2 (.inr (.inr (.inr h)))
  have enter : (⟨entry, .epsilon, f.entry⟩ : Nfa.Edge) ∈ (beside entry exit f g).edges :=
    mem_beside_edges.2 (.inl rfl)
  have leave : (⟨f.exit, .epsilon, exit⟩ : Nfa.Edge) ∈ (beside entry exit f g).edges :=
    mem_beside_edges.2 (.inr (.inl rfl))
  have onward : Path (beside entry exit f g).edges f.exit [] exit := .silent leave (.stay exit)
  refine
    { entry_eq := rfl
      exit_eq := rfl
      base_le := Nat.le_trans fLow.le gLow
      sources := ?_
      targets := ?_
      spells := ?_
      reached := ?_
      leaves := ?_ }
  · intro e member
    have exitMem := hf.exit_mem
    simp only [beside]
    rcases mem_beside_edges.1 member with rfl | rfl | inF | inG
    · exact .inl rfl
    · dsimp only
      omega
    · have bounds := (hf.ends e inF).1
      omega
    · have bounds := hg.sources e inG
      omega
  · intro e member
    have entryMem := hf.entry_mem
    simp only [beside]
    rcases mem_beside_edges.1 member with rfl | rfl | inF | inG
    · dsimp only
      omega
    · exact .inl rfl
    · have bounds := (hf.ends e inF).2
      omega
    · have bounds := hg.targets e inG
      omega
  · intro w
    constructor
    · exact cons_sound hf hg entryLow exitLow apart
    · rintro (mem | mem)
      · have path := (((hf.spells w).2 mem).mono first).append onward
        exact .silent enter (by simpa using path)
      · exact ((hg.spells w).2 mem).mono second
  · intro q low high
    by_cases inF : q < f.next
    · obtain ⟨u, path⟩ := hf.reached q low inF
      exact ⟨u, .silent enter (path.mono first)⟩
    · obtain ⟨u, path⟩ := hg.reached q (Nat.not_lt.1 inF) high
      exact ⟨u, path.mono second⟩
  · intro q low high
    by_cases inF : q < f.next
    · obtain ⟨v, path⟩ := hf.leaves q low inF
      exact ⟨v ++ [], (path.mono first).append onward⟩
    · obtain ⟨v, path⟩ := hg.leaves q (Nat.not_lt.1 inF) high
      exact ⟨v, path.mono second⟩

theorem Branching.proper (hg : Branching base (base + 1) (base + 2) g language)
    (branched : base + 2 < g.next) : Proper base g language := by
  obtain ⟨u, before⟩ := hg.reached (base + 2) (Nat.le_refl _) branched
  obtain ⟨v, after⟩ := hg.leaves (base + 2) (Nat.le_refl _) branched
  have across := before.append after
  have entry := hg.entry_eq
  have exit := hg.exit_eq
  refine
    { entry_mem := by omega
      exit_mem := by omega
      apart := by omega
      ends := ?_
      intoEntry := ?_
      fromExit := ?_
      spells := by rw [entry, exit]; exact hg.spells
      reached := ?_
      leaves := ?_ }
  · intro e member
    have source := hg.sources e member
    have target := hg.targets e member
    omega
  · intro e member
    have target := hg.targets e member
    omega
  · intro e member
    have source := hg.sources e member
    omega
  · intro q low high
    rw [entry]
    obtain rfl | rfl | inside : q = base ∨ q = base + 1 ∨ base + 2 ≤ q := by omega
    · exact ⟨[], .stay q⟩
    · exact ⟨_, across⟩
    · exact hg.reached q inside high
  · intro q low high
    rw [exit]
    obtain rfl | rfl | inside : q = base ∨ q = base + 1 ∨ base + 2 ≤ q := by omega
    · exact ⟨_, across⟩
    · exact ⟨[], .stay (base + 1)⟩
    · exact hg.leaves q inside high

/-! ## Expressions -/

theorem proper_ofItems (items : List Regex)
    (each : ∀ item ∈ items, ∀ base, Proper base (ofRegex base item) item.language) :
    ∀ base, Proper base (ofItems base items) (Regex.sequenceLanguage items) := by
  induction items with
  | nil => exact proper_epsilon
  | cons item rest ih =>
      intro base
      have first := each item List.mem_cons_self base
      cases rest with
      | nil => exact first.congr (by simp [Regex.sequenceLanguage])
      | cons second rest =>
          exact first.seq (ih (fun r mem => each r (List.mem_cons_of_mem item mem)) _)

theorem branching_ofBranches (branches : List Regex)
    (each : ∀ branch ∈ branches, ∀ base, Proper base (ofRegex base branch) branch.language)
    (apart : entry ≠ exit) : ∀ base, entry < base → exit < base →
      Branching entry exit base (ofBranches entry exit base branches)
        (Regex.choiceLanguage branches) := by
  induction branches with
  | nil => exact fun base _ _ => .nil base apart
  | cons branch rest ih =>
      intro base entryLow exitLow
      have first := each branch List.mem_cons_self base
      have low := first.base_lt
      exact .cons first
        (ih (fun r mem => each r (List.mem_cons_of_mem branch mem)) _ (by omega) (by omega))
        entryLow exitLow apart

/-- The fragment of an expression is proper for the language of the
expression. -/
theorem proper_ofRegex (r : Regex) : ∀ base, Proper base (ofRegex base r) r.language := by
  induction r with
  | epsilon => exact proper_epsilon
  | any => exact proper_any
  | lit c => exact fun base => proper_symbol base c
  | cat items each => exact proper_ofItems items each
  | alt branches each =>
      intro base
      cases branches with
      | nil => exact proper_epsilon base
      | cons branch rest =>
          have inner := branching_ofBranches (branch :: rest) each
            (Nat.ne_of_lt (Nat.lt_succ_self base)) (base + 2) (by omega) (by omega)
          have low := (each branch List.mem_cons_self (base + 2)).base_lt
          have high := (branching_ofBranches rest
            (fun r mem => each r (List.mem_cons_of_mem branch mem))
            (Nat.ne_of_lt (Nat.lt_succ_self base)) (ofRegex (base + 2) branch).next
            (by omega) (by omega)).base_le
          exact inner.proper (Nat.lt_of_lt_of_le low high)
  | star inner ih =>
      intro base
      refine ((ih (base + 2)).wrap true true).congr ?_
      exact Language.one_add_self_mul_kstar_eq_kstar _
  | plus inner ih =>
      intro base
      exact ((ih (base + 2)).wrap false true).congr (zero_add _)
  | opt inner ih =>
      intro base
      exact ((ih (base + 2)).wrap true false).congr (congrArg (1 + ·) (mul_one _))

/-! ## Characters on the edges -/

def Names (f : Fragment) (c : Char) : Prop := ∃ e ∈ f.edges, e.label = .symbol c

theorem names_ofLabel {label : Label} {c : Char} :
    (ofLabel base label).Names c ↔ label = .symbol c := by
  simp [Names, ofLabel]

theorem names_seq {c : Char} : (seq f g).Names c ↔ f.Names c ∨ g.Names c := by
  simp [Names, mem_seq_edges, or_and_right, exists_or]

theorem names_wrap (skip loop : Bool) (base : Nat) (f : Fragment) (c : Char) :
    (wrap skip loop base f).Names c ↔ f.Names c := by
  cases skip <;> cases loop <;> simp [Names, mem_wrap_edges, or_and_right, exists_or]

theorem names_beside {c : Char} :
    (beside entry exit f g).Names c ↔ f.Names c ∨ g.Names c := by
  simp [Names, mem_beside_edges, or_and_right, exists_or]

theorem exists_ofRegex_apply (operator : Regex.Repetition) (base : Nat) (r : Regex) :
    ∃ skip loop, ofRegex base (operator.apply r) = wrap skip loop base (ofRegex (base + 2) r) := by
  cases operator with
  | star => exact ⟨true, true, rfl⟩
  | plus => exact ⟨false, true, rfl⟩
  | opt => exact ⟨true, false, rfl⟩

theorem names_ofRegex (c : Char) (r : Regex) :
    ∀ base, (ofRegex base r).Names c ↔ .symbol c ∈ r.occurrences := by
  induction r using Regex.induct_apply with
  | epsilon => simp [ofRegex, names_ofLabel, Regex.occurrences]
  | any => simp [ofRegex, names_ofLabel, Regex.occurrences]
  | lit d => simp [ofRegex, names_ofLabel, Regex.occurrences, eq_comm]
  | cat items each =>
      rw [Regex.occurrences]
      change ∀ base, (ofItems base items).Names c ↔ _
      induction items with
      | nil => simp [ofItems, names_ofLabel, Regex.occurrencesOf]
      | cons item rest ih =>
          intro base
          have first := each item List.mem_cons_self base
          cases rest with
          | nil => simpa [Regex.occurrencesOf, ofItems] using first
          | cons second rest =>
              have later := ih (fun r mem => each r (List.mem_cons_of_mem item mem))
                (ofRegex base item).next
              rw [Regex.occurrencesOf, List.mem_append, ← first, ← later]
              exact names_seq
  | alt branches each =>
      intro base
      rw [Regex.occurrences]
      have spread : ∀ base', (ofBranches base (base + 1) base' branches).Names c ↔
          .symbol c ∈ Regex.occurrencesOf branches := by
        induction branches with
        | nil => simp [ofBranches, Names, Regex.occurrencesOf]
        | cons branch rest ih =>
            intro base'
            have first := each branch List.mem_cons_self base'
            have later := ih (fun r mem => each r (List.mem_cons_of_mem branch mem))
              (ofRegex base' branch).next
            rw [Regex.occurrencesOf, List.mem_append, ← first, ← later]
            exact names_beside
      cases branches with
      | nil => simp [ofRegex, Names, Regex.occurrencesOf]
      | cons branch rest => exact spread (base + 2)
  | repeated operator inner ih =>
      intro base
      obtain ⟨skip, loop, eq⟩ := exists_ofRegex_apply operator base inner
      rw [eq, Regex.occurrences_apply, ← ih (base + 2)]
      exact names_wrap skip loop base _ c

end Fragment

/-! ## The automaton -/

namespace Nfa

section Automaton

variable {r : Regex} {w : List Char}

theorem thompson_edges (r : Regex) :
    (thompson r).edges =
      ⟨0, .epsilon, (Fragment.ofRegex 1 r).entry⟩ :: (Fragment.ofRegex 1 r).edges := by
  simp [thompson, addEdge, addLabel, Label.symbol?, link, setAccepting, attach, new]

theorem thompson_size (r : Regex) : (thompson r).size = (Fragment.ofRegex 1 r).next := rfl

theorem thompson_accepting (r : Regex) :
    (thompson r).accepting = [(Fragment.ofRegex 1 r).exit] := rfl

theorem isAccepting_thompson {q : Nat} :
    (thompson r).isAccepting q = true ↔ q = (Fragment.ofRegex 1 r).exit := by
  simp [isAccepting, thompson_accepting]

theorem thompson_alphabet (r : Regex) : (thompson r).alphabet = r.literals := by
  have same : (thompson r).alphabet =
      OrderedSet.ofList ((Fragment.ofRegex 1 r).edges.filterMap (·.label.symbol?)) := rfl
  rw [same]
  have literals : OrderedSet.Increasing r.literals := OrderedSet.increasing_ofList _
  refine (OrderedSet.increasing_ofList _).ext literals fun c => ?_
  rw [OrderedSet.mem_ofList, Regex.mem_literals, ← Fragment.names_ofRegex c r 1]
  simp [Fragment.Names, Regex.symbol?_eq_some]

theorem wellFormed_thompson (r : Regex) : WellFormed (thompson r) := by
  have proper := Fragment.proper_ofRegex r 1
  have entry := proper.entry_mem
  have exit := proper.exit_mem
  refine
    { size_pos := ?_
      ends := ?_
      increasing := ?_
      accepting := ?_
      symbols := ?_ }
  · rw [thompson_size]
    omega
  · intro e member
    rw [thompson_edges] at member
    rw [thompson_size]
    rcases List.mem_cons.1 member with rfl | inside
    · dsimp only
      omega
    · have bounds := proper.ends e inside
      omega
  · rw [thompson_alphabet]
    exact OrderedSet.increasing_ofList _
  · intro q member
    rw [thompson_accepting] at member
    rw [List.mem_singleton.1 member, thompson_size]
    exact exit.2
  · intro e member c names
    rw [thompson_edges] at member
    rw [thompson_alphabet, Regex.mem_literals, ← Fragment.names_ofRegex c r 1]
    rcases List.mem_cons.1 member with rfl | inside
    · cases names
    · exact ⟨e, inside, Regex.symbol?_eq_some.1 names⟩

theorem hasAcceptingPath_thompson : (thompson r).HasAcceptingPath w ↔ w ∈ r.language := by
  have proper := Fragment.proper_ofRegex r 1
  have inner : (Fragment.ofRegex 1 r).edges ⊆ (thompson r).edges := by
    rw [thompson_edges]
    exact List.subset_cons_self _ _
  constructor
  · rintro ⟨q, accepting, path⟩
    obtain rfl := isAccepting_thompson.1 accepting
    rw [thompson_edges] at path
    let stay : Nat → Language Char := fun p =>
      {w | (p = 0 ∧ w ∈ r.language) ∨
        w ∈ wordsTo (Fragment.ofRegex 1 r).edges (Fragment.ofRegex 1 r).exit p}
    have stable : Path.Stable (⟨0, .epsilon, (Fragment.ofRegex 1 r).entry⟩ ::
        (Fragment.ofRegex 1 r).edges) stay := by
      intro e member s w spells rest
      rcases List.mem_cons.1 member with rfl | inside
      · obtain rfl := Label.spells_epsilon.1 spells
        rcases rest with ⟨low, -⟩ | onward
        · exact absurd low (Nat.ne_of_gt proper.entry_mem.1)
        · exact .inl ⟨rfl, (proper.spells w).1 onward⟩
      · rcases rest with ⟨low, -⟩ | onward
        · exact absurd low (Nat.ne_of_gt (proper.ends e inside).2.1)
        · exact .inr (Path.follow inside spells onward)
    rcases Path.mem_of_stable stable path (.inr (.stay _)) with ⟨-, spelled⟩ | onward
    · exact spelled
    · exact absurd (proper.source_mem onward).1 (by omega)
  · intro mem
    have path := ((proper.spells w).2 mem).mono inner
    have enter : (⟨0, .epsilon, (Fragment.ofRegex 1 r).entry⟩ : Edge) ∈ (thompson r).edges := by
      rw [thompson_edges]
      exact List.mem_cons_self
    exact ⟨_, isAccepting_thompson.2 rfl, .silent enter path⟩

theorem accepts_thompson : (thompson r).accepts w = true ↔ w ∈ r.language :=
  (wellFormed_thompson r).accepts_iff_hasAcceptingPath.trans hasAcceptingPath_thompson

theorem productive_thompson (r : Regex) : Productive (thompson r) := by
  have proper := Fragment.proper_ofRegex r 1
  have inner : (Fragment.ofRegex 1 r).edges ⊆ (thompson r).edges := by
    rw [thompson_edges]
    exact List.subset_cons_self _ _
  intro q below
  rw [thompson_size] at below
  cases q with
  | zero =>
      obtain ⟨w, path⟩ := proper.passes
      have enter : (⟨0, .epsilon, (Fragment.ofRegex 1 r).entry⟩ : Edge) ∈ (thompson r).edges := by
        rw [thompson_edges]
        exact List.mem_cons_self
      exact ⟨w, _, isAccepting_thompson.2 rfl, .silent enter (path.mono inner)⟩
  | succ q =>
      obtain ⟨w, path⟩ := proper.leaves (q + 1) (Nat.succ_pos q) below
      exact ⟨w, _, isAccepting_thompson.2 rfl, path.mono inner⟩

end Automaton

end Nfa

end RegularLanguages
