import Mathlib.Algebra.BigOperators.Group.List.Basic
import RegularLanguages.Dfa.Partition
import RegularLanguages.Proofs.Dfa.Run
import RegularLanguages.Proofs.Distinct

/-! # Refining leads to the groups that no word tells apart

Every partition on the way has each state in one group (`Partitions`).  Refining
keeps two states together exactly if they were together and have the same
signature, so it never parts states that no word tells apart.  A round that
leaves the number of groups as it is has split none, and as there are no more
groups than states such a round is reached. -/
set_option autoImplicit false
namespace RegularLanguages.Dfa

variable {d : Dfa} {groups : List (List Nat)} {group : List Nat} {p q i : Nat}

/-! ## Counting parts -/

section Counting

variable {α : Type} {parts : List (List α)}

theorem length_le_length_flatten (nonempty : ∀ part ∈ parts, part ≠ []) :
    parts.length ≤ parts.flatten.length := by
  have each : ∀ length ∈ parts.map List.length, 1 ≤ length := by
    rw [List.forall_mem_map]
    exact fun part mem => List.length_pos_of_ne_nil (nonempty part mem)
  have counted := List.length_le_sum_of_one_le _ each
  rwa [List.length_map, ← List.length_flatten] at counted

theorem length_eq_one_of_length_flatten (nonempty : ∀ part ∈ parts, part ≠ [])
    (same : parts.flatten.length = parts.length) : ∀ part ∈ parts, part.length = 1 := by
  induction parts with
  | nil => exact fun part mem => absurd mem List.not_mem_nil
  | cons part rest ih =>
      have first := List.length_pos_of_ne_nil (nonempty part List.mem_cons_self)
      have inRest := fun other mem => nonempty other (List.mem_cons_of_mem part mem)
      have others := length_le_length_flatten inRest
      rw [List.flatten_cons, List.length_append, List.length_cons] at same
      exact List.forall_mem_cons.2 ⟨by omega, ih inRest (by omega)⟩

end Counting

/-! ## Partitions -/

/-- Every state is in exactly one group, and no group is empty. -/
structure Partitions (d : Dfa) (groups : List (List Nat)) : Prop where
  nonempty : ∀ group ∈ groups, group ≠ []
  nodup : groups.flatten.Nodup
  mem_iff : ∀ q, q ∈ groups.flatten ↔ q < d.size

def Together (groups : List (List Nat)) (p q : Nat) : Prop :=
  ∃ group ∈ groups, p ∈ group ∧ q ∈ group

namespace Partitions

theorem lt_of_mem (parts : Partitions d groups) (listed : group ∈ groups) (mem : q ∈ group) :
    q < d.size :=
  (parts.mem_iff q).1 (List.mem_flatten.2 ⟨group, listed, mem⟩)

theorem mem (parts : Partitions d groups) (there : groups[i]? = some group) (mem : q ∈ group) :
    q < d.size :=
  parts.lt_of_mem (List.mem_of_getElem? there) mem

theorem groupOf_eq (parts : Partitions d groups) (there : groups[i]? = some group)
    (mem : q ∈ group) : groupOf groups q = i := by
  obtain ⟨lt, rfl⟩ := List.getElem?_eq_some_iff.1 there
  refine (List.findIdx_eq lt).2 ⟨List.contains_iff_mem.2 mem, fun j before => ?_⟩
  have apart := List.pairwise_iff_getElem.1 (List.nodup_flatten.1 parts.nodup).2 j i
    (Nat.lt_trans before lt) lt before
  exact Bool.eq_false_iff.2 fun other => apart (List.contains_iff_mem.1 other) mem

theorem exists_group (parts : Partitions d groups) (lt : q < d.size) :
    ∃ group, groups[groupOf groups q]? = some group ∧ q ∈ group := by
  obtain ⟨group, mem, inside⟩ := List.mem_flatten.1 ((parts.mem_iff q).2 lt)
  obtain ⟨i, there⟩ := List.mem_iff_getElem?.1 mem
  refine ⟨group, ?_, inside⟩
  rw [parts.groupOf_eq there inside]
  exact there

theorem groupOf_lt (parts : Partitions d groups) (lt : q < d.size) :
    groupOf groups q < groups.length := by
  obtain ⟨group, there, -⟩ := parts.exists_group lt
  exact (List.getElem?_eq_some_iff.1 there).1

theorem groupOf_eq_iff (parts : Partitions d groups) (ltP : p < d.size) (ltQ : q < d.size) :
    groupOf groups p = groupOf groups q ↔ Together groups p q := by
  constructor
  · intro same
    obtain ⟨group, there, memP⟩ := parts.exists_group ltP
    obtain ⟨other, there', memQ⟩ := parts.exists_group ltQ
    rw [same] at there
    obtain rfl : group = other := Option.some.inj (there.symm.trans there')
    exact ⟨group, List.mem_of_getElem? there, memP, memQ⟩
  · rintro ⟨group, mem, memP, memQ⟩
    obtain ⟨i, there⟩ := List.mem_iff_getElem?.1 mem
    rw [parts.groupOf_eq there memP, parts.groupOf_eq there memQ]

theorem length_le (parts : Partitions d groups) : groups.length ≤ d.size := by
  have states : groups.flatten.Perm (List.range d.size) :=
    (List.perm_ext_iff_of_nodup parts.nodup List.nodup_range).2 fun q => by
      rw [parts.mem_iff, List.mem_range]
  rw [← List.length_range (n := d.size), ← states.length_eq]
  exact length_le_length_flatten parts.nonempty

end Partitions

/-! ## Signatures -/

theorem stepLe_iff {a b : Char × Nat} :
    stepLe a b = true ↔ a.1 < b.1 ∨ (a.1 = b.1 ∧ a.2 ≤ b.2) := by
  simp [stepLe]

theorem stepLe_trans (a b c : Char × Nat) (first : stepLe a b = true) (second : stepLe b c = true) :
    stepLe a c = true := by
  rw [stepLe_iff] at *
  rcases first with below | ⟨same, le⟩
  · rcases second with below' | ⟨same', -⟩
    · exact .inl (Char.lt_trans below below')
    · exact .inl (same' ▸ below)
  · rcases second with below' | ⟨same', le'⟩
    · exact .inl (same ▸ below')
    · exact .inr ⟨same.trans same', Nat.le_trans le le'⟩

theorem stepLe_total (a b : Char × Nat) : (stepLe a b || stepLe b a) = true := by
  rw [Bool.or_eq_true, stepLe_iff, stepLe_iff]
  rcases Nat.lt_trichotomy a.1.toNat b.1.toNat with below | same | above
  · exact .inl (.inl below)
  · have same := Char.toNat_inj.1 same
    rcases Nat.le_total a.2 b.2 with le | ge
    · exact .inl (.inr ⟨same, le⟩)
    · exact .inr (.inr ⟨same.symm, ge⟩)
  · exact .inr (.inl above)

theorem stepLe_antisymm {a b : Char × Nat} (first : stepLe a b = true)
    (second : stepLe b a = true) :
    a = b := by
  rw [stepLe_iff] at first second
  rcases first with below | ⟨same, le⟩
  · rcases second with above | ⟨same, -⟩
    · exact absurd above (Char.lt_asymm below)
    · exact absurd below (same ▸ Char.lt_irrefl _)
  · rcases second with above | ⟨-, ge⟩
    · exact absurd above (same ▸ Char.lt_irrefl _)
    · exact Prod.ext same (Nat.le_antisymm le ge)

theorem mem_signature (d : Dfa) (groups : List (List Nat)) (q : Nat) (c : Char) (g : Nat) :
    (c, g) ∈ d.signature groups q ↔ ∃ p, ⟨q, c, p⟩ ∈ d.edges ∧ groupOf groups p = g := by
  simp only [signature, List.mem_mergeSort, List.mem_map, List.mem_filter, beq_iff_eq]
  constructor
  · rintro ⟨e, ⟨mem, rfl⟩, same⟩
    cases same
    exact ⟨e.target, mem, rfl⟩
  · rintro ⟨p, mem, rfl⟩
    exact ⟨⟨q, c, p⟩, ⟨mem, rfl⟩, rfl⟩

theorem nodup_signature (wf : WellFormed d) (groups : List (List Nat)) (q : Nat) :
    (d.signature groups q).Nodup := by
  refine (List.mergeSort_perm _ stepLe).nodup_iff.2
    (List.Nodup.map_on ?_ (wf.edges_nodup.filter _))
  intro e mem f mem' same
  simp only [List.mem_filter, beq_iff_eq] at mem mem'
  have symbols : e.symbol = f.symbol := congrArg Prod.fst same
  have sources : e.source = f.source := mem.2.trans mem'.2.symm
  have targets := wf.deterministic e mem.1 f mem'.1 sources symbols
  cases e
  cases f
  simp only at sources symbols targets
  rw [sources, symbols, targets]

theorem signature_eq_iff (wf : WellFormed d) :
    d.signature groups p = d.signature groups q ↔
      ∀ c, (d.successor p c).map (groupOf groups) = (d.successor q c).map (groupOf groups) := by
  have entry : ∀ {r c g}, (c, g) ∈ d.signature groups r ↔
      (d.successor r c).map (groupOf groups) = some g := by
    intro r c g
    rw [mem_signature, Option.map_eq_some_iff]
    exact exists_congr fun t => and_congr_left' wf.det.successor_eq_some_iff.symm
  constructor
  · intro same c
    refine Option.ext fun g => ?_
    rw [← entry, ← entry, same]
  · intro same
    refine List.Perm.eq_of_pairwise (fun a b _ _ => stepLe_antisymm)
      (List.pairwise_mergeSort stepLe_trans stepLe_total _)
      (List.pairwise_mergeSort stepLe_trans stepLe_total _)
      ((List.perm_ext_iff_of_nodup (nodup_signature wf groups p)
        (nodup_signature wf groups q)).2 fun ⟨c, g⟩ => ?_)
    rw [entry, entry, same]

/-! ## Splitting a group -/

section Classify

variable {key : Nat → List (Char × Nat)} {signature : List (Char × Nat)}
  {parts : List (List (Char × Nat) × List Nat)}

structure Sorted (key : Nat → List (Char × Nat))
    (parts : List (List (Char × Nat) × List Nat)) : Prop where
  keys : (parts.map (·.1)).Nodup
  nonempty : ∀ part ∈ parts, part.2 ≠ []
  key_eq : ∀ part ∈ parts, ∀ q ∈ part.2, key q = part.1

theorem keys_classify (signature : List (Char × Nat)) (q : Nat)
    (parts : List (List (Char × Nat) × List Nat)) :
    (classify signature q parts).map (·.1) = Distinct.add (parts.map (·.1)) signature := by
  induction parts with
  | nil => rfl
  | cons part rest ih =>
      rw [classify]
      by_cases same : part.1 = signature
      · simp [same, Distinct.add]
      · rw [if_neg same, List.map_cons, ih, Distinct.add, Distinct.add, List.map_cons]
        by_cases known : signature ∈ rest.map (·.1)
        · rw [if_pos known, if_pos (List.mem_cons_of_mem part.1 known)]
        · rw [if_neg known, if_neg (List.not_mem_cons_of_ne_of_not_mem (Ne.symm same) known)]
          rfl

theorem perm_classify (signature : List (Char × Nat)) (q : Nat)
    (parts : List (List (Char × Nat) × List Nat)) :
    ((classify signature q parts).map (·.2)).flatten.Perm (q :: (parts.map (·.2)).flatten) := by
  induction parts with
  | nil => exact List.Perm.refl _
  | cons part rest ih =>
      rw [classify]
      by_cases same : part.1 = signature
      · rw [if_pos same, List.map_cons, List.flatten_cons, List.append_assoc]
        exact List.perm_middle
      · rw [if_neg same, List.map_cons, List.flatten_cons, List.map_cons, List.flatten_cons]
        exact (ih.append_left part.2).trans List.perm_middle

/-- What holds of the new parts: either they are old ones, or the state came to
one of its signature. -/
theorem mem_classify {part : List (Char × Nat) × List Nat}
    (mem : part ∈ classify signature q parts) :
    part ∈ parts ∨ part.1 = signature ∧
      (part.2 = [q] ∨ ∃ members, (signature, members) ∈ parts ∧ part.2 = members ++ [q]) := by
  induction parts with
  | nil =>
      obtain rfl := List.mem_singleton.1 mem
      exact .inr ⟨rfl, .inl rfl⟩
  | cons first rest ih =>
      rw [classify] at mem
      by_cases same : first.1 = signature
      · rw [if_pos same] at mem
        rcases List.mem_cons.1 mem with rfl | mem
        · exact .inr ⟨same, .inr ⟨first.2, same ▸ List.mem_cons_self, rfl⟩⟩
        · exact .inl (List.mem_cons_of_mem first mem)
      · rw [if_neg same] at mem
        rcases List.mem_cons.1 mem with rfl | mem
        · exact .inl List.mem_cons_self
        · rcases ih mem with old | ⟨under, only | ⟨members, old, eq⟩⟩
          · exact .inl (List.mem_cons_of_mem first old)
          · exact .inr ⟨under, .inl only⟩
          · exact .inr ⟨under, .inr ⟨members, List.mem_cons_of_mem first old, eq⟩⟩

theorem Sorted.classify (sorted : Sorted key parts) (q : Nat) :
    Sorted key (classify (key q) q parts) where
  keys := by
    rw [keys_classify]
    exact Distinct.nodup_add sorted.keys (key q)
  nonempty := by
    intro part mem
    rcases mem_classify mem with old | ⟨-, only | ⟨members, -, eq⟩⟩
    · exact sorted.nonempty part old
    · exact only ▸ List.cons_ne_nil q []
    · exact eq ▸ List.concat_ne_nil q members
  key_eq := by
    intro part mem r inside
    rcases mem_classify mem with old | ⟨under, only | ⟨members, old, eq⟩⟩
    · exact sorted.key_eq part old r inside
    · rw [only] at inside
      rw [under, List.mem_singleton.1 inside]
    · rw [eq] at inside
      rw [under]
      rcases List.mem_append.1 inside with before | last
      · exact sorted.key_eq _ old r before
      · rw [List.mem_singleton.1 last]

theorem sorted_foldl (group : List Nat) (sorted : Sorted key parts) :
    Sorted key (group.foldl (fun parts q => classify (key q) q parts) parts) := by
  induction group generalizing parts with
  | nil => exact sorted
  | cons q rest ih => exact ih (sorted.classify q)

theorem perm_foldl (key : Nat → List (Char × Nat)) (parts : List (List (Char × Nat) × List Nat))
    (group : List Nat) :
    ((group.foldl (fun parts q => classify (key q) q parts) parts).map (·.2)).flatten.Perm
      (group ++ (parts.map (·.2)).flatten) := by
  induction group generalizing parts with
  | nil => exact List.Perm.refl _
  | cons q rest ih =>
      exact (ih _).trans (((perm_classify (key q) q parts).append_left rest).trans List.perm_middle)

end Classify

theorem perm_split (d : Dfa) (groups : List (List Nat)) (group : List Nat) :
    (d.split groups group).flatten.Perm group := by
  have all := perm_foldl (d.signature groups) [] group
  rwa [List.map_nil, List.flatten_nil, List.append_nil] at all

theorem exists_sorted (d : Dfa) (groups : List (List Nat)) (group : List Nat) :
    ∃ parts, Sorted (d.signature groups) parts ∧ d.split groups group = parts.map (·.2) := by
  have empty : Sorted (d.signature groups) [] := ⟨List.nodup_nil, by simp, by simp⟩
  exact ⟨_, sorted_foldl group empty, rfl⟩

theorem split_nonempty {part : List Nat} (mem : part ∈ d.split groups group) : part ≠ [] := by
  obtain ⟨parts, sorted, eq⟩ := exists_sorted d groups group
  rw [eq] at mem
  obtain ⟨entry, sub, rfl⟩ := List.mem_map.1 mem
  exact sorted.nonempty entry sub

theorem together_split (memP : p ∈ group) (memQ : q ∈ group) :
    Together (d.split groups group) p q ↔ d.signature groups p = d.signature groups q := by
  have inParts : ∀ {r}, r ∈ group → ∃ part ∈ d.split groups group, r ∈ part := fun mem =>
    List.mem_flatten.1 ((perm_split d groups group).mem_iff.2 mem)
  obtain ⟨parts, sorted, eq⟩ := exists_sorted d groups group
  rw [eq] at inParts ⊢
  constructor
  · rintro ⟨part, mem, insideP, insideQ⟩
    obtain ⟨entry, sub, rfl⟩ := List.mem_map.1 mem
    rw [sorted.key_eq entry sub p insideP, sorted.key_eq entry sub q insideQ]
  · intro same
    obtain ⟨partP, mem, insideP⟩ := inParts memP
    obtain ⟨entryP, memEntryP, rfl⟩ := List.mem_map.1 mem
    obtain ⟨partQ, mem', insideQ⟩ := inParts memQ
    obtain ⟨entryQ, memEntryQ, rfl⟩ := List.mem_map.1 mem'
    rw [sorted.key_eq entryP memEntryP p insideP, sorted.key_eq entryQ memEntryQ q insideQ] at same
    obtain rfl := List.inj_on_of_nodup_map sorted.keys memEntryP memEntryQ same
    exact ⟨entryP.2, mem, insideP, insideQ⟩

theorem split_ne_nil (nonempty : group ≠ []) : d.split groups group ≠ [] := by
  intro empty
  have all := perm_split d groups group
  rw [empty] at all
  exact nonempty all.nil_eq.symm

/-! ## Refining every group -/

def Settled (d : Dfa) (groups : List (List Nat)) : Prop :=
  ∀ p q, Together groups p q → d.signature groups p = d.signature groups q

theorem perm_flatMap_split (d : Dfa) (groups others : List (List Nat)) :
    (others.flatMap (d.split groups)).flatten.Perm others.flatten := by
  induction others with
  | nil => exact List.Perm.refl _
  | cons group rest ih =>
      rw [List.flatMap_cons, List.flatten_append, List.flatten_cons]
      exact (perm_split d groups group).append ih

theorem Partitions.refine (parts : Partitions d groups) : Partitions d (d.refine groups) where
  nonempty := by
    intro part mem
    obtain ⟨group, -, inside⟩ := List.mem_flatMap.1 mem
    exact split_nonempty inside
  nodup := (perm_flatMap_split d groups groups).nodup_iff.2 parts.nodup
  mem_iff q := (perm_flatMap_split d groups groups).mem_iff.trans (parts.mem_iff q)

theorem together_refine : Together (d.refine groups) p q ↔
    Together groups p q ∧ d.signature groups p = d.signature groups q := by
  constructor
  · rintro ⟨part, mem, insideP, insideQ⟩
    obtain ⟨group, there, sub⟩ := List.mem_flatMap.1 mem
    have inGroup : ∀ {r}, r ∈ part → r ∈ group := fun inside =>
      (perm_split d groups group).mem_iff.1 (List.mem_flatten.2 ⟨part, sub, inside⟩)
    exact ⟨⟨group, there, inGroup insideP, inGroup insideQ⟩,
      (together_split (inGroup insideP) (inGroup insideQ)).1 ⟨part, sub, insideP, insideQ⟩⟩
  · rintro ⟨⟨group, there, memP, memQ⟩, same⟩
    obtain ⟨part, sub, insideP, insideQ⟩ := (together_split memP memQ).2 same
    exact ⟨part, List.mem_flatMap.2 ⟨group, there, sub⟩, insideP, insideQ⟩

theorem splits_ne_nil (parts : Partitions d groups) :
    ∀ split ∈ groups.map (d.split groups), split ≠ [] := by
  intro split mem
  obtain ⟨group, there, rfl⟩ := List.mem_map.1 mem
  exact split_ne_nil (parts.nonempty group there)

theorem length_le_length_refine (parts : Partitions d groups) :
    groups.length ≤ (d.refine groups).length := by
  have counted := length_le_length_flatten (splits_ne_nil parts)
  rwa [List.length_map, ← List.flatMap_def] at counted

/-- A round that leaves the number of groups as it is splits no group, so no
group has two signatures. -/
theorem settled_of_length_refine (parts : Partitions d groups)
    (same : (d.refine groups).length = groups.length) : Settled d groups := by
  rintro p q ⟨group, there, memP, memQ⟩
  have single := length_eq_one_of_length_flatten (splits_ne_nil parts)
    (by rw [← List.flatMap_def, List.length_map]; exact same)
    (d.split groups group) (List.mem_map_of_mem there)
  obtain ⟨part, eq⟩ := List.length_eq_one_iff.1 single
  have all := perm_split d groups group
  rw [eq, List.flatten_singleton] at all
  refine (together_split memP memQ).1 ⟨part, ?_, all.mem_iff.2 memP, all.mem_iff.2 memQ⟩
  rw [eq]
  exact List.mem_singleton_self part

/-! ## Indistinguishable states -/

theorem Indistinguishable.accepting (h : Indistinguishable d p q) :
    d.isAccepting p = d.isAccepting q := (h []).2

theorem Indistinguishable.successor (h : Indistinguishable d p q) (c : Char) :
    (d.successor p c = none ∧ d.successor q c = none) ∨
      ∃ p' q', d.successor p c = some p' ∧ d.successor q c = some q' ∧
        Indistinguishable d p' q' := by
  have defined := (h [c]).1
  simp only [run_singleton] at defined
  cases stepP : d.successor p c with
  | none =>
      rw [stepP, Option.isSome_none, eq_comm, Option.isSome_eq_false_iff,
        Option.isNone_iff_eq_none] at defined
      exact .inl ⟨rfl, defined⟩
  | some p' =>
      rw [stepP, Option.isSome_some, eq_comm, Option.isSome_iff_exists] at defined
      obtain ⟨q', stepQ⟩ := defined
      refine .inr ⟨p', q', rfl, stepQ, fun word => ?_⟩
      have onward := h (c :: word)
      rw [run_cons, run_cons, acceptsFrom_cons, acceptsFrom_cons, stepP, stepQ] at onward
      exact onward

/-- What every partition on the way is: it parts accepting states from others,
but no states that no word tells apart. -/
structure Sound (d : Dfa) (groups : List (List Nat)) : Prop where
  parts : Partitions d groups
  accepting : ∀ p q, Together groups p q → d.isAccepting p = d.isAccepting q
  together : ∀ p q, p < d.size → q < d.size → Indistinguishable d p q → Together groups p q

theorem Sound.refine (wf : WellFormed d) (sound : Sound d groups) : Sound d (d.refine groups) where
  parts := sound.parts.refine
  accepting p q h := sound.accepting p q (together_refine.1 h).1
  together p q ltP ltQ h := by
    refine together_refine.2
      ⟨sound.together p q ltP ltQ h, (signature_eq_iff wf).2 fun c => ?_⟩
    rcases h.successor c with ⟨noneP, noneQ⟩ | ⟨p', q', stepP, stepQ, alike⟩
    · rw [noneP, noneQ]
    · have ltP' := wf.det.successor_lt stepP
      have ltQ' := wf.det.successor_lt stepQ
      rw [stepP, stepQ, Option.map_some, Option.map_some,
        (sound.parts.groupOf_eq_iff ltP' ltQ').2 (sound.together p' q' ltP' ltQ' alike)]

theorem Sound.indistinguishable (wf : WellFormed d) (sound : Sound d groups)
    (settled : Settled d groups) (h : Together groups p q) : Indistinguishable d p q := by
  intro word
  induction word generalizing p q with
  | nil => exact ⟨rfl, sound.accepting p q h⟩
  | cons c rest ih =>
      have leads := (signature_eq_iff wf).1 (settled p q h) c
      rw [run_cons, run_cons, acceptsFrom_cons, acceptsFrom_cons]
      cases stepP : d.successor p c with
      | none =>
          rw [stepP, Option.map_none, eq_comm, Option.map_eq_none_iff] at leads
          rw [leads]
          exact ⟨rfl, rfl⟩
      | some p' =>
          rw [stepP, Option.map_some, eq_comm, Option.map_eq_some_iff] at leads
          obtain ⟨q', stepQ, same⟩ := leads
          rw [stepQ]
          exact ih ((sound.parts.groupOf_eq_iff (wf.det.successor_lt stepP)
            (wf.det.successor_lt stepQ)).1 same.symm)

/-! ## The rounds -/

theorem together_initialGroups : Together d.initialGroups p q ↔
    p < d.size ∧ q < d.size ∧ d.isAccepting p = d.isAccepting q := by
  have kept : ∀ {group}, p ∈ group → (group ∈ d.initialGroups ↔
      group = (List.range d.size).filter d.isAccepting ∨
        group = (List.range d.size).filter (!d.isAccepting ·)) := by
    intro group mem
    simp only [initialGroups, List.mem_filter, List.mem_cons, List.not_mem_nil, or_false, ne_eq,
      decide_eq_true_eq, List.ne_nil_of_mem mem, not_false_eq_true, and_true]
  constructor
  · rintro ⟨group, there, memP, memQ⟩
    rcases (kept memP).1 there with rfl | rfl
    · simp only [List.mem_filter, List.mem_range] at memP memQ
      exact ⟨memP.1, memQ.1, memP.2.trans memQ.2.symm⟩
    · simp only [List.mem_filter, List.mem_range, Bool.not_eq_true'] at memP memQ
      exact ⟨memP.1, memQ.1, memP.2.trans memQ.2.symm⟩
  · rintro ⟨ltP, ltQ, same⟩
    cases accepting : d.isAccepting p with
    | true =>
        have memP : p ∈ (List.range d.size).filter d.isAccepting := by simp [ltP, accepting]
        exact ⟨_, (kept memP).2 (.inl rfl), memP, by simp [ltQ, ← same, accepting]⟩
    | false =>
        have memP : p ∈ (List.range d.size).filter (!d.isAccepting ·) := by simp [ltP, accepting]
        exact ⟨_, (kept memP).2 (.inr rfl), memP, by simp [ltQ, ← same, accepting]⟩

theorem perm_initialGroups (d : Dfa) : d.initialGroups.flatten.Perm (List.range d.size) := by
  rw [initialGroups, List.flatten_filter_ne_nil, List.flatten_cons, List.flatten_singleton]
  exact List.filter_append_perm d.isAccepting _

theorem sound_initialGroups (d : Dfa) : Sound d d.initialGroups where
  parts :=
    { nonempty := fun _ mem => of_decide_eq_true (List.mem_filter.1 mem).2
      nodup := (perm_initialGroups d).nodup_iff.2 List.nodup_range
      mem_iff := fun _ => (perm_initialGroups d).mem_iff.trans List.mem_range }
  accepting _ _ h := (together_initialGroups.1 h).2.2
  together _ _ ltP ltQ h := together_initialGroups.2 ⟨ltP, ltQ, h.accepting⟩

/-- With as many rounds as groups can still be added, the last round leaves the
number of groups as it is. -/
theorem sound_stabilize (wf : WellFormed d) {rounds : Nat} (sound : Sound d groups)
    (enough : d.size ≤ groups.length + rounds) :
    Sound d (d.stabilize rounds groups) ∧
      (d.refine (d.stabilize rounds groups)).length = (d.stabilize rounds groups).length := by
  have grows := length_le_length_refine sound.parts
  induction rounds generalizing groups with
  | zero =>
      -- There are as many groups as states, so the round cannot add one.
      have bound := sound.parts.refine.length_le
      exact ⟨sound, by rw [stabilize]; omega⟩
  | succ rounds ih =>
      rw [stabilize]
      by_cases same : (d.refine groups).length = groups.length
      · rw [if_pos same]
        exact ⟨sound, same⟩
      · rw [if_neg same]
        have refined := sound.refine wf
        exact ih refined (by omega) (length_le_length_refine refined.parts)

theorem sound_equivalenceGroups (wf : WellFormed d) : Sound d d.equivalenceGroups :=
  (sound_stabilize wf (sound_initialGroups d) (Nat.le_add_left _ _)).1

/-- The rounds end as a round leaves the number of groups as it is, and not for
lack of rounds. -/
theorem length_refine_equivalenceGroups (wf : WellFormed d) :
    (d.refine d.equivalenceGroups).length = d.equivalenceGroups.length :=
  (sound_stabilize wf (sound_initialGroups d) (Nat.le_add_left _ _)).2

theorem settled_equivalenceGroups (wf : WellFormed d) : Settled d d.equivalenceGroups :=
  settled_of_length_refine (sound_equivalenceGroups wf).parts (length_refine_equivalenceGroups wf)

/-- The final groups hold the states that no word tells apart. -/
theorem groupOf_equivalenceGroups_eq_iff (wf : WellFormed d) (ltP : p < d.size)
    (ltQ : q < d.size) :
    groupOf d.equivalenceGroups p = groupOf d.equivalenceGroups q ↔ Indistinguishable d p q := by
  have sound := sound_equivalenceGroups wf
  rw [sound.parts.groupOf_eq_iff ltP ltQ]
  exact ⟨sound.indistinguishable wf (settled_equivalenceGroups wf), sound.together p q ltP ltQ⟩

end RegularLanguages.Dfa
