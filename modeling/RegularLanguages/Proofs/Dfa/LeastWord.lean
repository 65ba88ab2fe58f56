import Mathlib.Data.Char
import Mathlib.Data.List.Induction
import Mathlib.Data.List.Shortlex
import RegularLanguages.Proofs.Dfa.Run

/-! # Numbers in the order of least words

Of the words that lead to a state the least is the shortest, and of the shortest
the one with the smaller character where they first differ.  If the first edge to
`j` or beyond, by its source and then by its character, always leads to `j`
itself, as in a search by layers (`BreadthFirst`), then the numbers of the states
are in the order of their least words.  For the least word to `j` is the least
word to the source of that first edge and its character (`FirstWord.least`). -/
set_option autoImplicit false
namespace RegularLanguages.Dfa

variable {d : Dfa} {edges : List Edge} {e : Edge} {size p q i j : Nat} {a b c : Char}
  {u v w : List Char}

/-! ## The order of words -/

theorem lex_append (same : u.length = v.length) (lex : List.Lex (· < ·) u v) :
    List.Lex (· < ·) (u ++ [a]) (v ++ [b]) := by
  induction lex with
  | nil => simp at same
  | cons _ ih => exact .cons (ih (by simpa using same))
  | rel less => exact .rel less

theorem shortlex_concat (less : List.Shortlex (· < ·) u v) :
    List.Shortlex (· < ·) (u ++ [a]) (v ++ [b]) := by
  rcases List.shortlex_def.1 less with shorter | ⟨same, lex⟩
  · exact .of_length_lt (by simpa using shorter)
  · exact .of_lex (by simpa using same) (lex_append same lex)

theorem shortlex_concat_of_lt (less : a < b) :
    List.Shortlex (· < ·) (u ++ [a]) (u ++ [b]) := by
  apply List.Shortlex.append_left
  rwa [List.shortlex_singleton_iff]

theorem shortlex_trans (first : List.Shortlex (· < ·) u v)
    (second : List.Shortlex (· < ·) v w) : List.Shortlex (· < ·) u w := by
  rw [List.shortlex_def] at first second ⊢
  rcases first with shorter | ⟨same, lex⟩
  · left
    omega
  · rcases second with shorter' | ⟨same', lex'⟩
    · left
      omega
    · exact .inr ⟨same.trans same', List.lt_trans lex lex'⟩

theorem shortlex_nil_concat (v : List Char) (b : Char) :
    List.Shortlex (· < ·) [] (v ++ [b]) := .of_length_lt (by simp)

/-! ## First edges -/

/-- The first edge, by its source and then by its character, that leads to `j` or
beyond. -/
structure FirstEdge (edges : List Edge) (p : Nat) (c : Char) (j : Nat) : Prop where
  edge : ⟨p, c, j⟩ ∈ edges
  source_lt : p < j
  first : ∀ e ∈ edges, j ≤ e.target → p < e.source ∨ p = e.source ∧ c ≤ e.symbol

def BreadthFirst (edges : List Edge) (size : Nat) : Prop :=
  ∀ j, 0 < j → j < size → ∃ p c, FirstEdge edges p c j

theorem FirstEdge.eq (h : FirstEdge edges p a j) (h' : FirstEdge edges q b j) :
    p = q ∧ a = b := by
  have least := h.first _ h'.edge (Nat.le_refl j)
  have least' := h'.first _ h.edge (Nat.le_refl j)
  dsimp only at least least'
  have sources : p = q := by omega
  subst sources
  simp only [Nat.lt_irrefl, true_and, false_or] at least least'
  exact ⟨rfl, Char.le_antisymm least least'⟩

theorem FirstEdge.cons (h : FirstEdge edges p c j)
    (later : p < e.source ∨ p = e.source ∧ c ≤ e.symbol) : FirstEdge (e :: edges) p c j where
  edge := List.mem_cons_of_mem e h.edge
  source_lt := h.source_lt
  first := by
    intro f mem reaches
    rcases List.mem_cons.1 mem with rfl | old
    · exact later
    · exact h.first f old reaches

theorem BreadthFirst.cons (h : BreadthFirst edges size)
    (later : ∀ f ∈ edges, f.source < e.source ∨ f.source = e.source ∧ f.symbol ≤ e.symbol) :
    BreadthFirst (e :: edges) size := by
  intro j pos lt
  obtain ⟨p, c, first⟩ := h j pos lt
  exact ⟨p, c, first.cons (later _ first.edge)⟩

theorem BreadthFirst.discover (h : BreadthFirst edges size)
    (later : ∀ f ∈ edges, f.source < e.source ∨ f.source = e.source ∧ f.symbol ≤ e.symbol)
    (inside : ∀ f ∈ edges, f.target < size) (source : e.source < size) (target : e.target = size) :
    BreadthFirst (e :: edges) (size + 1) := by
  intro j pos lt
  rcases Nat.lt_succ_iff_lt_or_eq.1 lt with old | rfl
  · exact h.cons later j pos old
  · obtain ⟨p, c, t⟩ := e
    obtain rfl : t = j := target
    refine ⟨p, c, List.mem_cons_self, source, fun f mem reaches => ?_⟩
    rcases List.mem_cons.1 mem with rfl | old
    · exact .inr ⟨rfl, Char.le_refl _⟩
    · exact absurd (inside f old) (Nat.not_lt_of_le reaches)

/-! ## First words -/

inductive FirstWord (edges : List Edge) : Nat → List Char → Prop where
  | start : FirstWord edges 0 []
  | onward {p j : Nat} {c : Char} {u : List Char} :
      FirstWord edges p u → FirstEdge edges p c j → FirstWord edges j (u ++ [c])

theorem BreadthFirst.exists_firstWord (h : BreadthFirst edges size) (lt : j < size) :
    ∃ u, FirstWord edges j u := by
  induction j using Nat.strongRecOn with
  | ind j ih =>
      rcases Nat.eq_zero_or_pos j with rfl | pos
      · exact ⟨[], .start⟩
      · obtain ⟨p, c, first⟩ := h j pos lt
        obtain ⟨u, word⟩ := ih p first.source_lt (Nat.lt_trans first.source_lt lt)
        exact ⟨u ++ [c], .onward word first⟩

namespace FirstWord

theorem eq (word : FirstWord edges j u) (word' : FirstWord edges j v) : u = v := by
  induction word generalizing v with
  | start =>
      cases word' with
      | start => rfl
      | onward _ first => exact absurd first.source_lt (Nat.not_lt_zero _)
  | onward _ first ih =>
      cases word' with
      | start => exact absurd first.source_lt (Nat.not_lt_zero _)
      | onward before first' =>
          obtain ⟨rfl, rfl⟩ := first.eq first'
          rw [ih before]

theorem run (det : Deterministic d) (word : FirstWord d.edges j u) : d.run 0 u = some j := by
  induction word with
  | start => rfl
  | onward _ first ih =>
      rw [run_append_singleton, ih, Option.bind_some]
      exact det.successor_eq_some_iff.2 first.edge

theorem lt (det : Deterministic d) (word : FirstWord d.edges i u) (word' : FirstWord d.edges j v)
    (before : i < j) : List.Shortlex (· < ·) u v := by
  induction word' generalizing i u with
  | start => exact absurd before (Nat.not_lt_zero i)
  | @onward q j b v front' first' ih =>
      cases word with
      | start => exact shortlex_nil_concat v b
      | @onward p _ a u front first =>
          rcases first.first _ first'.edge (Nat.le_of_lt before) with earlier | ⟨same, le⟩
          · exact shortlex_concat (ih front earlier)
          · obtain rfl : p = q := same
            obtain rfl := front.eq front'
            apply shortlex_concat_of_lt
            refine lt_of_le_of_ne le fun eq => ?_
            -- One character leads to one state.
            have targets := det.target_eq _ first.edge _ first'.edge rfl eq
            exact Nat.ne_of_lt before targets

/-- No word to the same state is less. -/
theorem least (det : Deterministic d) (layers : BreadthFirst d.edges d.size) (pos : 0 < d.size)
    (word : FirstWord d.edges j u) (run : d.run 0 v = some j) :
    v = u ∨ List.Shortlex (· < ·) u v := by
  -- A word is not less than the least one to the state before its last character.
  induction v using List.reverseRecOn generalizing j u with
  | nil =>
      obtain rfl := Option.some.inj run
      exact .inl (FirstWord.start.eq word)
  | append_singleton v b ih =>
      rw [run_append_singleton] at run
      obtain ⟨q, before, step⟩ := Option.bind_eq_some_iff.1 run
      obtain ⟨w, word'⟩ := layers.exists_firstWord (det.run_lt pos before)
      cases word with
      | start => exact .inr (shortlex_nil_concat v b)
      | @onward p _ c u front first =>
          rcases first.first _ (mem_edges_of_successor step) (Nat.le_refl j) with
            earlier | ⟨same, le⟩
          · have less := front.lt det word' earlier
            rcases ih word' before with rfl | more
            · exact .inr (shortlex_concat less)
            · exact .inr (shortlex_concat (shortlex_trans less more))
          · obtain rfl : p = q := same
            rcases ih front before with rfl | more
            · rcases eq_or_lt_of_le le with rfl | less
              · exact .inl rfl
              · exact .inr (shortlex_concat_of_lt less)
            · exact .inr (shortlex_concat more)

end FirstWord

/-! ## Least words -/

structure LeastWord (d : Dfa) (q : Nat) (word : List Char) : Prop where
  leads : d.run 0 word = some q
  least : ∀ other, d.run 0 other = some q → other = word ∨ List.Shortlex (· < ·) word other

theorem LeastWord.eq (h : LeastWord d q u) (h' : LeastWord d q v) : u = v := by
  rcases h.least v h'.leads with same | less
  · exact same.symm
  · rcases h'.least u h.leads with same | less'
    · exact same
    · exact absurd less' (Std.Asymm.asymm _ _ less)

theorem FirstWord.leastWord (det : Deterministic d) (layers : BreadthFirst d.edges d.size)
    (pos : 0 < d.size) (word : FirstWord d.edges j u) : LeastWord d j u :=
  ⟨word.run det, fun _ => word.least det layers pos⟩

theorem BreadthFirst.exists_leastWord (layers : BreadthFirst d.edges d.size)
    (det : Deterministic d) (lt : j < d.size) : ∃ u, LeastWord d j u := by
  obtain ⟨u, word⟩ := layers.exists_firstWord lt
  exact ⟨u, word.leastWord det layers (Nat.zero_lt_of_lt lt)⟩

theorem BreadthFirst.leastWord_lt (layers : BreadthFirst d.edges d.size) (det : Deterministic d)
    (before : i < j) (lt : j < d.size) (least : LeastWord d i u) (least' : LeastWord d j v) :
    List.Shortlex (· < ·) u v := by
  have pos := Nat.zero_lt_of_lt lt
  obtain ⟨x, word⟩ := layers.exists_firstWord (Nat.lt_trans before lt)
  obtain ⟨y, word'⟩ := layers.exists_firstWord lt
  rw [least.eq (word.leastWord det layers pos), least'.eq (word'.leastWord det layers pos)]
  exact word.lt det word' before

end RegularLanguages.Dfa
