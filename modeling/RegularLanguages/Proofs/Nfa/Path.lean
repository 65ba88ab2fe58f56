import Mathlib.Computability.Language
import RegularLanguages.Nfa.Spec

/-! # What paths spell

A path that spells two words one after the other passes a state between them
(`append_iff`), and one that spells a single character has one edge that reads
it (`singleton_iff`).

To bound what paths to a state can spell, give every state a language.  If the
languages are stable, so that following an edge and then a word of the language
of its target gives a word of the language of its source, then every path to a
state whose language holds the empty word spells a word of the language of the
state it leaves (`mem_of_stable`). -/
set_option autoImplicit false
namespace RegularLanguages

def Label.Spells (label : Label) (word : List Char) : Prop :=
  (label = .epsilon ∧ word = []) ∨ ∃ c, label.reads c = true ∧ word = [c]

theorem Label.spells_epsilon {word : List Char} : Label.epsilon.Spells word ↔ word = [] := by
  simp [Label.Spells, Label.reads]

namespace Nfa

def wordsTo (edges : List Edge) (exit p : Nat) : Language Char := {w | Nfa.Path edges p w exit}

namespace Path

variable {edges : List Edge} {p q r size : Nat} {s u v w : List Char} {c : Char}

theorem split (h : Path edges p w r) : ∀ {u v : List Char}, w = u ++ v →
    ∃ q, Path edges p u q ∧ Path edges q v r := by
  induction h with
  | stay q =>
      intro u v spelled
      obtain ⟨rfl, rfl⟩ := List.append_eq_nil_iff.1 spelled.symm
      exact ⟨q, .stay q, .stay q⟩
  | silent edge _ ih =>
      intro u v spelled
      obtain ⟨q, before, after⟩ := ih spelled
      exact ⟨q, .silent edge before, after⟩
  | @read p q r label c w edge reads rest ih =>
      intro u v spelled
      cases u with
      | nil =>
          obtain rfl : c :: w = v := spelled
          exact ⟨p, .stay p, .read edge reads rest⟩
      | cons d u =>
          obtain ⟨rfl, tail⟩ := List.cons.inj spelled
          obtain ⟨q, before, after⟩ := ih tail
          exact ⟨q, .read edge reads before, after⟩

theorem append_iff : Path edges p (u ++ v) r ↔ ∃ q, Path edges p u q ∧ Path edges q v r :=
  ⟨fun h => h.split rfl, fun ⟨_, before, after⟩ => before.append after⟩

theorem singleton_iff : Path edges p [c] r ↔
    ∃ a label b, Path edges p [] a ∧ ⟨a, label, b⟩ ∈ edges ∧ label.reads c = true ∧
      Path edges b [] r := by
  constructor
  · intro h
    generalize spelled : [c] = w at h
    induction h with
    | stay => cases spelled
    | @silent p q r w edge _ ih =>
        obtain ⟨a, label, b, before, reading, reads, after⟩ := ih spelled
        exact ⟨a, label, b, .silent edge before, reading, reads, after⟩
    | @read p q r label d w edge reads rest _ =>
        cases spelled
        exact ⟨p, label, q, .stay p, edge, reads, rest⟩
  · rintro ⟨a, label, b, before, reading, reads, after⟩
    exact before.append (.read reading reads after)

theorem target_lt (h : Path edges p w q) (inside : ∀ e ∈ edges, e.target < size) (lt : p < size) :
    q < size := by
  induction h with
  | stay => exact lt
  | silent edge _ ih => exact ih (inside _ edge)
  | read edge _ _ ih => exact ih (inside _ edge)

/-! ## Stable languages -/

theorem follow {e : Edge} (edge : e ∈ edges) (spells : e.label.Spells s)
    (h : Path edges e.target w r) : Path edges e.source (s ++ w) r := by
  obtain ⟨source, label, target⟩ := e
  rcases spells with ⟨rfl, rfl⟩ | ⟨c, reads, rfl⟩
  · exact .silent edge h
  · exact .read edge reads h

/-- What following an edge and then going on from its target stays in. -/
def Stable (edges : List Edge) (language : Nat → Language Char) : Prop :=
  ∀ e ∈ edges, ∀ s w, e.label.Spells s → w ∈ language e.target → s ++ w ∈ language e.source

theorem mem_of_stable {language : Nat → Language Char} (stable : Stable edges language)
    (h : Path edges p w r) (last : [] ∈ language r) : w ∈ language p := by
  induction h with
  | stay => exact last
  | silent edge _ ih => exact stable _ edge [] _ (.inl ⟨rfl, rfl⟩) (ih last)
  | read edge reads _ ih => exact stable _ edge [_] _ (.inr ⟨_, reads, rfl⟩) (ih last)

theorem source (h : Path edges p w r) : p = r ∨ ∃ e ∈ edges, e.source = p := by
  cases h with
  | stay => exact .inl rfl
  | silent edge _ => exact .inr ⟨_, edge, rfl⟩
  | read edge _ _ => exact .inr ⟨_, edge, rfl⟩

/-- Where every edge reads a character of the alphabet or nothing, a path can
be followed with characters of the alphabet alone. -/
theorem exists_over {alphabet : List Char} (h : Path edges p w r)
    (readable : ∀ e ∈ edges, e.label = .epsilon ∨ ∃ c ∈ alphabet, e.label.reads c = true) :
    ∃ v, (∀ c ∈ v, c ∈ alphabet) ∧ Path edges p v r := by
  induction h with
  | stay q => exact ⟨[], by simp, .stay q⟩
  | silent edge _ ih =>
      obtain ⟨v, allowed, path⟩ := ih
      exact ⟨v, allowed, .silent edge path⟩
  | @read p q r label c w edge reads _ ih =>
      obtain ⟨v, allowed, path⟩ := ih
      rcases readable _ edge with silent | ⟨d, mem, readsToo⟩
      · obtain rfl : label = .epsilon := silent
        cases reads
      · exact ⟨d :: v, List.forall_mem_cons.2 ⟨mem, allowed⟩, .read edge readsToo path⟩

end Path

end Nfa

end RegularLanguages
