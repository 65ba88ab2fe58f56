import Mathlib.Algebra.Order.Kleene
import Mathlib.Computability.Language
import Mathlib.Order.CompletePartialOrder
import RegularLanguages.Dfa.Spec
import RegularLanguages.Proofs.Dfa.Run

/-! # Routes with one more inner state

A route that may pass `k` besides the states below `k` either does not, or
comes to `k`, returns to it some number of times, and goes on (`routes_succ`).
With all states inside, the routes from the initial to the final companion
spell the accepted words (`mem_routes_iff_accepts`). -/
set_option autoImplicit false
namespace RegularLanguages.Dfa

variable {d : Dfa} {bound i j k q : Nat} {u v w : List Char}

def routes (d : Dfa) (bound i j : Nat) : Language Char := {w | Route d bound i w j}

theorem Route.trans (first : Route d bound i u k) (inside : k < bound)
    (second : Route d bound k v j) : Route d bound i (u ++ v) j := by
  induction first with
  | step s => exact .through s inside second
  | through s lt _ ih =>
      rw [List.append_assoc]
      exact .through s lt (ih inside second)

theorem mem_routes_zero : w ∈ routes d 0 i j ↔ Step d i w j := by
  constructor
  · intro route
    cases route with
    | step s => exact s
    | through _ lt _ => exact absurd lt (Nat.not_lt_zero _)
  · exact fun s => Route.step s

theorem routes_le_succ (d : Dfa) (k i j : Nat) : routes d k i j ≤ routes d (k + 1) i j :=
  fun _ route => Route.mono route (Nat.le_succ k)

theorem mul_routes_le (d : Dfa) (k i j : Nat) :
    routes d k i k * routes d (k + 1) k j ≤ routes d (k + 1) i j := by
  rintro w ⟨u, first, v, second, rfl⟩
  exact Route.trans (routes_le_succ d k i k first) (Nat.lt_succ_self k) second

theorem append_mem_routes (s : Step d i u k) (inside : k < bound) (rest : v ∈ routes d bound k j) :
    u ++ v ∈ routes d bound i j := Route.through s inside rest

theorem routes_succ (d : Dfa) (k i j : Nat) :
    routes d (k + 1) i j =
      routes d k i j +
        routes d k i k * (KStar.kstar (routes d k k k) * routes d k k j) := by
  refine le_antisymm (fun w route => ?_) (add_le (routes_le_succ d k i j) ?_)
  · -- The start varies in the induction, as the tail of a route starts elsewhere.
    have onward : ∀ {i w j}, Route d (k + 1) i w j → w ∈ routes d k i j +
        routes d k i k * (KStar.kstar (routes d k k k) * routes d k k j) := by
      intro i w j route
      induction route with
      | step s => exact .inl (Route.step s)
      | @through i m j u v s lt _ ih =>
          rcases Nat.lt_or_eq_of_le (Nat.le_of_lt_succ lt) with below | rfl
          · rcases ih with direct | ⟨a, first, b, rest, rfl⟩
            · exact .inl (append_mem_routes s below direct)
            · rw [← List.append_assoc]
              exact .inr (Language.append_mem_mul (append_mem_routes s below first) rest)
          · -- The tail starts in `m` and may return, which the star takes in.
            refine .inr (Language.append_mem_mul (Route.step s) ?_)
            rw [← one_add_mul_kstar (a := routes d m m m), add_mul, one_mul, mul_assoc]
            exact ih
    exact onward route
  · calc routes d k i k * (KStar.kstar (routes d k k k) * routes d k k j)
        ≤ routes d k i k * routes d (k + 1) k j :=
          mul_le_mul_right (kstar_mul_le (routes_le_succ d k k j) (mul_routes_le d k k j)) _
      _ ≤ routes d (k + 1) i j := mul_routes_le d k i j

/-! ## From the initial to the final companion -/

theorem step_of_lt (wf : WellFormed d) (lt : q < d.size) : Step d q w j ↔
    (∃ c, w = [c] ∧ d.successor q c = some j) ∨
      w = [] ∧ d.isAccepting q = true ∧ j = d.size + 1 := by
  constructor
  · intro s
    generalize source : q = i at s
    cases s with
    | edge edge =>
        subst source
        exact .inl ⟨_, rfl, wf.det.successor_eq_some_iff.2 edge⟩
    | enter => exact absurd source (Nat.ne_of_lt lt)
    | leave accepting => exact .inr ⟨rfl, source ▸ accepting, rfl⟩
  · rintro (⟨c, rfl, step⟩ | ⟨rfl, accepting, rfl⟩)
    · exact .edge (mem_edges_of_successor step)
    · exact .leave accepting

/-- The routes from a state to the final companion are the accepted words. -/
theorem route_iff_acceptsFrom (wf : WellFormed d) (lt : q < d.size) :
    Route d d.size q w (d.size + 1) ↔ d.acceptsFrom q w = true := by
  constructor
  · intro route
    generalize last : d.size + 1 = j at route
    induction route with
    | step s =>
        rcases (step_of_lt wf lt).1 s with ⟨c, rfl, step⟩ | ⟨rfl, accepting, -⟩
        · exact absurd (wf.det.successor_lt step) (by omega)
        · exact accepting
    | through s inside _ ih =>
        rcases (step_of_lt wf lt).1 s with ⟨c, rfl, step⟩ | ⟨-, -, rfl⟩
        · rw [List.singleton_append, acceptsFrom_cons, step]
          exact ih inside last
        · exact absurd inside (by omega)
  · intro accepted
    induction w generalizing q with
    | nil => exact .step (.leave accepted)
    | cons c rest ih =>
        rw [acceptsFrom_cons] at accepted
        obtain ⟨next, step, onward⟩ := (Option.any_eq_true _ _).1 accepted
        have inside := wf.det.successor_lt step
        exact .through (u := [c]) (.edge (mem_edges_of_successor step)) inside (ih inside onward)

theorem lt_of_isAccepting (accepting : d.isAccepting q = true) : q < d.size := by
  obtain ⟨state, there, -⟩ := (Option.any_eq_true _ _).1 accepting
  exact (List.getElem?_eq_some_iff.1 there).1

theorem step_from_initial (ends : ∀ e ∈ d.edges, e.source < d.size ∧ e.target < d.size) :
    Step d d.size w j ↔ w = [] ∧ j = 0 := by
  constructor
  · intro s
    generalize source : d.size = i at s
    cases s with
    | edge edge => exact absurd (ends _ edge).1 (by omega)
    | enter => exact ⟨rfl, rfl⟩
    | leave accepting => exact absurd (lt_of_isAccepting accepting) (by omega)
  · rintro ⟨rfl, rfl⟩
    exact .enter

theorem mem_routes_iff_accepts (wf : WellFormed d) :
    w ∈ routes d d.size d.size (d.size + 1) ↔ d.accepts w = true := by
  rw [accepts_eq_acceptsFrom, ← route_iff_acceptsFrom wf wf.size_pos]
  constructor
  · intro route
    cases route with
    | step s => exact absurd ((step_from_initial wf.ends).1 s).2 (Nat.succ_ne_zero _)
    | through s _ onward =>
        obtain ⟨rfl, rfl⟩ := (step_from_initial wf.ends).1 s
        exact onward
  · intro route
    exact Route.through (u := []) .enter wf.size_pos route

end RegularLanguages.Dfa
