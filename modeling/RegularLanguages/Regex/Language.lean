import Mathlib.Computability.Language
import RegularLanguages.Regex.Basic

/-! # The language of an expression

`language r` is the set of words that `r` describes.  A sequence without items
and a choice without branches describe the empty word, so no expression
describes the empty language.  `language_concat` and `language_alternation` say
that the trees of the pattern syntax mean what their parts make together. -/
set_option autoImplicit false
namespace RegularLanguages.Regex

def singletons : Language Char := {w | ∃ c, w = [c]}

mutual
def language : Regex → Language Char
  | epsilon => 1
  | any => singletons
  | lit c => {[c]}
  | cat items => sequenceLanguage items
  | alt branches => if branches.isEmpty then 1 else choiceLanguage branches
  | star inner => KStar.kstar (language inner)
  | plus inner => language inner * KStar.kstar (language inner)
  | opt inner => 1 + language inner

def sequenceLanguage : List Regex → Language Char
  | [] => 1
  | item :: rest => language item * sequenceLanguage rest

def choiceLanguage : List Regex → Language Char
  | [] => 0
  | branch :: rest => language branch + choiceLanguage rest
end

theorem mem_singletons (w : List Char) : w ∈ singletons ↔ ∃ c, w = [c] := Iff.rfl

theorem mem_choiceLanguage (w : List Char) (branches : List Regex) :
    w ∈ choiceLanguage branches ↔ ∃ r ∈ branches, w ∈ language r := by
  induction branches with
  | nil => simp [choiceLanguage, Language.notMem_zero]
  | cons r rest ih => simp [choiceLanguage, Language.mem_add, ih]

theorem sequenceLanguage_append (items others : List Regex) :
    sequenceLanguage (items ++ others) = sequenceLanguage items * sequenceLanguage others := by
  induction items with
  | nil => simp [sequenceLanguage]
  | cons r rest ih => simp [sequenceLanguage, ih, mul_assoc]

theorem language_concat (items : List Regex) :
    language (concat items) = sequenceLanguage items := by
  match items with
  | [] => simp [concat, language, sequenceLanguage]
  | [r] => simp [concat, sequenceLanguage]
  | r :: s :: rest => simp [concat, language]

theorem language_alternation {branches : List Regex} (h : branches ≠ []) :
    language (alternation branches) = choiceLanguage branches := by
  match branches with
  | [r] => simp [alternation, choiceLanguage]
  | r :: s :: rest => simp [alternation, language]

theorem language_nonempty (r : Regex) : ∃ w, w ∈ language r := by
  induction r with
  | epsilon => exact ⟨[], Language.nil_mem_one⟩
  | any => exact ⟨['a'], 'a', rfl⟩
  | lit c => exact ⟨[c], rfl⟩
  | cat items each =>
      rw [language]
      induction items with
      | nil => exact ⟨[], Language.nil_mem_one⟩
      | cons item rest ih =>
          obtain ⟨u, first⟩ := each item List.mem_cons_self
          obtain ⟨v, others⟩ := ih fun r mem => each r (List.mem_cons_of_mem item mem)
          exact ⟨u ++ v, Language.append_mem_mul first others⟩
  | alt branches each =>
      rw [language]
      cases branches with
      | nil => exact ⟨[], Language.nil_mem_one⟩
      | cons branch rest =>
          obtain ⟨u, first⟩ := each branch List.mem_cons_self
          exact ⟨u, .inl first⟩
  | star inner _ => exact ⟨[], Language.nil_mem_kstar _⟩
  | plus inner ih =>
      obtain ⟨u, once⟩ := ih
      exact ⟨u ++ [], Language.append_mem_mul once (Language.nil_mem_kstar _)⟩
  | opt inner _ => exact ⟨[], .inl rfl⟩

end RegularLanguages.Regex
