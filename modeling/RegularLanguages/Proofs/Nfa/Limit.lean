import RegularLanguages.Nfa.Subset

/-! # The limit cuts a search off and changes nothing else

A search under a limit finds what the search without one finds, in the same
order, and gives up where a set beyond the limit would be added.  As sets are only
added, whether it gives up can be told from how many there are before and after
(`cut`).  This holds of one character, and it carries on from one part of the
search and the next to both of them (`cut_trans`). -/
set_option autoImplicit false
namespace RegularLanguages.Subset.Discovery

variable {n : Nfa} {source : Nat} {c : Char} {set : List Nat} {d k m : Discovery}

/-- What a limit makes of a search that leads from `d` to `m` without it. -/
def cut (limit : Nat) (d m : Discovery) : Except StateLimitExceeded Discovery :=
  if max limit d.sets.length < m.sets.length then .error ⟨limit⟩ else .ok m

theorem cut_of_length_eq (limit : Nat) (same : m.sets.length = d.sets.length) :
    cut limit d m = .ok m := by
  apply if_neg
  omega

theorem cut_trans (limit : Nat) (first : d.sets.length ≤ k.sets.length)
    (second : k.sets.length ≤ m.sets.length) :
    cut limit d m =
      match cut limit d k with
      | .ok _ => cut limit k m
      | .error e => .error e := by
  by_cases beyond : max limit d.sets.length < k.sets.length
  · have beyondAll : max limit d.sets.length < m.sets.length := by omega
    simp only [cut, if_pos beyond, if_pos beyondAll]
  · have later : max limit d.sets.length < m.sets.length ↔
        max limit k.sets.length < m.sets.length := by omega
    simp only [cut, if_neg beyond, later]

/-- The search from `d` leads to `m` without a limit, and under each limit to what
the limit makes of that. -/
structure CutsOff (d m : Discovery) (search : Option Nat → Except StateLimitExceeded Discovery) :
    Prop where
  unlimited : search none = .ok m
  grows : d.sets.length ≤ m.sets.length
  limited : ∀ limit, search (some limit) = cut limit d m

theorem cutsOff_ok (d : Discovery) : CutsOff d d fun _ => .ok d :=
  ⟨rfl, Nat.le_refl _, fun limit => (cut_of_length_eq limit rfl).symm⟩

theorem cutsOff_arrive (d : Discovery) (source : Nat) (c : Char) (set : List Nat) :
    ∃ m, CutsOff d m (d.arrive · source c set) := by
  cases known : d.sets.idxOf? set with
  | some target =>
      refine ⟨{ d with edges := ⟨source, c, target⟩ :: d.edges }, ?_, Nat.le_refl _, ?_⟩
      · simp only [arrive, known]
      · intro limit
        simp only [arrive, known]
        exact (cut_of_length_eq limit rfl).symm
  | none =>
      refine ⟨⟨d.sets ++ [set], ⟨source, c, d.sets.length⟩ :: d.edges⟩, ?_, ?_, ?_⟩
      · simp only [arrive, known, full]
      · simp
      · intro limit
        have room : max limit d.sets.length < d.sets.length + 1 ↔ limit ≤ d.sets.length := by
          omega
        simp only [arrive, known, full, cut, List.length_append, List.length_singleton, room]
        by_cases beyond : limit ≤ d.sets.length
        · simp only [if_pos beyond]
        · simp only [if_neg beyond]

/-- One search after the other is cut off where the first is or else where the
second is. -/
theorem CutsOff.andThen {search : Option Nat → Except StateLimitExceeded Discovery}
    {next : Option Nat → Discovery → Except StateLimitExceeded Discovery}
    (first : CutsOff d k search) (second : CutsOff k m (next · k)) :
    CutsOff d m fun limit =>
      match search limit with
      | .ok found => next limit found
      | .error e => .error e where
  unlimited := by
    simp only [first.unlimited]
    exact second.unlimited
  grows := Nat.le_trans first.grows second.grows
  limited := by
    intro limit
    simp only [first.limited, cut_trans limit first.grows second.grows]
    by_cases beyond : max limit d.sets.length < k.sets.length
    · simp only [cut, if_pos beyond]
    · simp only [cut, if_neg beyond]
      exact second.limited limit

theorem cutsOff_expand (n : Nfa) (source : Nat) (set : List Nat) (alphabet : List Char)
    (d : Discovery) : ∃ m, CutsOff d m (expand n · source set alphabet d) := by
  induction alphabet generalizing d with
  | nil => exact ⟨d, cutsOff_ok d⟩
  | cons c rest ih =>
      simp only [expand]
      split
      next => exact ih d
      next =>
        obtain ⟨k, first⟩ := cutsOff_arrive d source c (n.closure (n.step c set))
        obtain ⟨m, second⟩ := ih k
        exact ⟨m, first.andThen second⟩

theorem cutsOff_explore (n : Nfa) (alphabet : List Char) (rounds source : Nat) (d : Discovery) :
    ∃ m, CutsOff d m (explore n alphabet · rounds source d) := by
  induction rounds generalizing source d with
  | zero => exact ⟨d, cutsOff_ok d⟩
  | succ rounds ih =>
      simp only [explore]
      split
      next => exact ⟨d, cutsOff_ok d⟩
      next set _ =>
        obtain ⟨k, first⟩ := cutsOff_expand n source set alphabet d
        obtain ⟨m, second⟩ := ih (source + 1) k
        exact ⟨m, first.andThen second⟩

end RegularLanguages.Subset.Discovery

namespace RegularLanguages.Nfa

open Subset Discovery

variable {n : Nfa} {found : Discovery} {alphabet : List Char}

theorem size_toDfa : (found.toDfa n alphabet).size = found.sets.length := by
  simp [Dfa.size, toDfa]

/-- Under a limit the search ends in the same automaton, unless that has too many
states. -/
theorem exists_determinize_limited (n : Nfa) (fallback : List Char) :
    ∃ d, n.determinize ⟨fallback, none⟩ = .ok d ∧
      ∀ limit, n.determinize ⟨fallback, some limit⟩ =
        if max limit 1 < d.size then .error ⟨limit⟩ else .ok d := by
  obtain ⟨found, search⟩ := cutsOff_explore n (n.inferAlphabet fallback) (Nat.pow 2 n.size) 0
    ⟨[n.closure [0]], []⟩
  refine ⟨found.toDfa n (n.inferAlphabet fallback), ?_, fun limit => ?_⟩
  · simp only [determinize, discover, search.unlimited]
  · simp only [determinize, discover, search.limited, cut, List.length_singleton, size_toDfa]
    by_cases beyond : max limit 1 < found.sets.length
    · simp only [if_pos beyond]
    · simp only [if_neg beyond]

theorem exists_determinize (n : Nfa) (fallback : List Char) :
    ∃ d, n.determinize ⟨fallback, none⟩ = .ok d := by
  obtain ⟨d, unlimited, -⟩ := exists_determinize_limited n fallback
  exact ⟨d, unlimited⟩

theorem determinize_error {settings : Subset.Settings} {e : StateLimitExceeded}
    (error : n.determinize settings = .error e) : settings.limit = some e.limit := by
  obtain ⟨fallback, limit⟩ := settings
  obtain ⟨d, unlimited, limited⟩ := exists_determinize_limited n fallback
  cases limit with
  | none => cases unlimited.symm.trans error
  | some bound =>
      rw [limited] at error
      split at error
      next => rw [← Except.error.inj error]
      next => cases error

theorem size_determinize_le {settings : Subset.Settings} {bound : Nat} {d : Dfa}
    (set : settings.limit = some bound) (ok : n.determinize settings = .ok d) :
    d.size ≤ max bound 1 := by
  obtain ⟨fallback, limit⟩ := settings
  obtain rfl : limit = some bound := set
  obtain ⟨whole, -, limited⟩ := exists_determinize_limited n fallback
  rw [limited] at ok
  split at ok
  next => cases ok
  next room =>
    obtain rfl := Except.ok.inj ok
    exact Nat.le_of_not_lt room

/-- A limit on the number of states is exceeded exactly if the automaton without a
limit has more states, of which the first is free.  Otherwise the automaton is the
same, and it is the same under every larger limit. -/
theorem limit_only_cuts_off (n : Nfa) (fallback : List Char) :
    ∃ d, n.determinize ⟨fallback, none⟩ = .ok d ∧
      (∀ limit, n.determinize ⟨fallback, some limit⟩ = .error ⟨limit⟩ ↔ max limit 1 < d.size) ∧
      (∀ limit, n.determinize ⟨fallback, some limit⟩ ≠ .error ⟨limit⟩ →
        n.determinize ⟨fallback, some limit⟩ = .ok d) ∧
      ∀ limit larger e, limit ≤ larger → n.determinize ⟨fallback, some limit⟩ = .ok e →
        n.determinize ⟨fallback, some larger⟩ = .ok e := by
  obtain ⟨d, unlimited, limited⟩ := exists_determinize_limited n fallback
  refine ⟨d, unlimited, ?_, ?_, ?_⟩
  · intro limit
    rw [limited]
    by_cases beyond : max limit 1 < d.size
    · simp [beyond]
    · simp [beyond]
  · intro limit within
    rw [limited] at within ⊢
    by_cases beyond : max limit 1 < d.size
    · exact absurd (if_pos beyond) within
    · exact if_neg beyond
  · intro limit larger e le ok
    rw [limited] at ok ⊢
    by_cases beyond : max limit 1 < d.size
    · cases (if_pos beyond).symm.trans ok
    · have room : ¬max larger 1 < d.size := by omega
      rw [if_neg room]
      exact (if_neg beyond).symm.trans ok

end RegularLanguages.Nfa
