import RegularLanguages.Proofs.Regex.RoundTrip
import RegularLanguages.Regex.Descent

/-! # The patterns are the texts that the grammar derives

Reading rule by rule finds every derivation again: from the text of a derivation,
with something behind it that may follow, the rule takes the derivation
(`readExpr_chars`).  So a text has one derivation at most.

Reading in one pass does the same as reading rule by rule (`agreesBelow`): what a
rule takes changes the innermost group by what the rule derives, and where a rule
finds a mistake the one pass finds that mistake.  In no case does a rule ask for
an atom where none can begin. -/
set_option autoImplicit false
namespace RegularLanguages.Regex

/-! ## Every derivation is read -/

section Derivations

variable {text rest : List Char}

theorem ofChar?_char (operator : Repetition) :
    Repetition.ofChar? operator.char = some operator := by
  cases operator <;> rfl

theorem readOperators_of_follows (factor : FactorDerivation) (spells : factor.chars ++ rest = text)
    (ends : Follows EndsFactor rest) :
    readOperators factor rest spells = ⟨factor, rest, spells, ends⟩ := by
  cases rest with
  | nil => rfl
  | cons c rest =>
      have other : Repetition.ofChar? c = none := follows_cons.1 ends
      rw [readOperators]
      split
      next => rfl
      next stands => simp [other] at stands

theorem readOperators_char (factor : FactorDerivation) (operator : Repetition)
    (spells : factor.chars ++ operator.char :: rest = text)
    (spells' : (FactorDerivation.repeated factor operator).chars ++ rest = text) :
    readOperators factor (operator.char :: rest) spells =
      readOperators (.repeated factor operator) rest spells' := by
  rw [readOperators]
  split
  next other => simp [ofChar?_char] at other
  next found stands =>
    obtain rfl : operator = found := by simpa [ofChar?_char] using stands
    rfl

def BeginsAtom (c : Char) : Prop := ¬EndsTerm c ∧ EndsFactor c

theorem beginsAtom_of_plain {c : Char} (plain : c ∉ metacharacters) : BeginsAtom c := by
  simp only [metacharacters, List.mem_cons, List.not_mem_nil, or_false, not_or] at plain
  simp [BeginsAtom, EndsTerm, EndsFactor, Repetition.ofChar?, plain]

theorem AtomDerivation.begins {a : AtomDerivation} {c : Char} {rest : List Char}
    (spelled : a.chars = c :: rest) : BeginsAtom c := by
  cases a with
  | literal d plain =>
      obtain ⟨rfl, -⟩ := List.cons.inj spelled
      exact beginsAtom_of_plain plain
  | any =>
      obtain ⟨rfl, -⟩ := List.cons.inj spelled
      exact ⟨by decide, rfl⟩
  | group inside =>
      obtain ⟨rfl, -⟩ := List.cons.inj spelled
      exact ⟨by decide, rfl⟩
  | escaped d =>
      obtain ⟨rfl, -⟩ := List.cons.inj spelled
      exact ⟨by decide, rfl⟩

theorem FactorDerivation.begins (f : FactorDerivation) {c : Char} {rest : List Char}
    (spelled : f.chars = c :: rest) : BeginsAtom c := by
  cases f with
  | atom a => exact a.begins spelled
  | repeated f operator =>
      obtain ⟨d, more, head⟩ := List.exists_cons_of_ne_nil f.chars_ne_nil
      rw [FactorDerivation.chars, head] at spelled
      obtain ⟨rfl, -⟩ := List.cons.inj spelled
      exact f.begins head

theorem Follows.endsTerm {rest : List Char} (ends : Follows EndsExpr rest) :
    Follows EndsTerm rest := fun c mem => .inr (ends c mem)

theorem Follows.endsFactor {rest : List Char} (ends : Follows EndsTerm rest) :
    Follows EndsFactor rest := by
  intro c mem
  rcases ends c mem with rfl | rfl <;> rfl

theorem TermDerivation.follows (t : TermDerivation) {rest : List Char}
    (ends : Follows EndsTerm rest) : Follows EndsFactor (t.chars ++ rest) := by
  cases t with
  | empty => exact ends.endsFactor
  | cons factor others =>
      obtain ⟨c, more, head⟩ := List.exists_cons_of_ne_nil factor.chars_ne_nil
      rw [TermDerivation.chars, head]
      exact follows_cons.2 (factor.begins head).2

theorem readAtom_plain {c : Char} (plain : c ∉ metacharacters) (position : Nat)
    (rest : List Char) :
    readAtom position (c :: rest) =
      .ok ⟨.literal c plain, rest, rfl, fun _ _ => trivial⟩ := by
  have others := plain
  simp only [metacharacters, List.mem_cons, List.not_mem_nil, or_false, not_or] at others
  rw [readAtom, dif_pos plain] <;> simp_all

mutual
theorem readExpr_chars (d : ExprDerivation) (position : Nat) {text rest : List Char}
    (spells : d.chars ++ rest = text) (ends : Follows EndsExpr rest) :
    readExpr position text = .ok ⟨d, rest, spells, ends⟩ := by
  cases d with
  | single term =>
      rw [readExpr, readTerm_chars term position spells ends.endsTerm]
      cases rest with
      | nil => rfl
      | cons c rest =>
          have close : c = ')' := show EndsExpr c from follows_cons.1 ends
          simp [close]
  | choice term others =>
      have first : term.chars ++ '|' :: (others.chars ++ rest) = text := by
        simpa [ExprDerivation.chars] using spells
      have bar : Follows EndsTerm ('|' :: (others.chars ++ rest)) := follows_cons.2 (.inl rfl)
      rw [readExpr, readTerm_chars term position first bar]
      simp only [dite_true]
      rw [readExpr_chars others _ rfl ends]

theorem readTerm_chars (t : TermDerivation) (position : Nat) {text rest : List Char}
    (spells : t.chars ++ rest = text) (ends : Follows EndsTerm rest) :
    readTerm position text = .ok ⟨t, rest, spells, ends⟩ := by
  cases t with
  | empty =>
      obtain rfl : rest = text := spells
      cases rest with
      | nil => rw [readTerm]
      | cons c rest =>
          have stops : EndsTerm c := follows_cons.1 ends
          rw [readTerm, dif_pos stops]
  | cons factor others =>
      have first : factor.chars ++ (others.chars ++ rest) = text := by
        simpa [TermDerivation.chars] using spells
      obtain ⟨c, more, head⟩ := List.exists_cons_of_ne_nil factor.chars_ne_nil
      obtain rfl : c :: (more ++ (others.chars ++ rest)) = text := by rw [← first, head]; rfl
      have goesOn : ¬EndsTerm c := (factor.begins head).1
      rw [readTerm, dif_neg goesOn, readFactor_chars factor position first,
        readOperators_of_follows factor first (others.follows ends)]
      simp only
      rw [readTerm_chars others _ rfl ends]

theorem readFactor_chars (f : FactorDerivation) (position : Nat) {text rest : List Char}
    (spells : f.chars ++ rest = text) :
    readFactor position text = .ok (readOperators f rest spells) := by
  cases f with
  | atom a => rw [readFactor, readAtom_chars a position spells]
  | repeated factor operator =>
      have inner : factor.chars ++ operator.char :: rest = text := by
        simpa [FactorDerivation.chars] using spells
      rw [readFactor_chars factor position inner, readOperators_char factor operator inner spells]

theorem readAtom_chars (a : AtomDerivation) (position : Nat) {text rest : List Char}
    (spells : a.chars ++ rest = text) :
    readAtom position text = .ok ⟨a, rest, spells, fun _ _ => trivial⟩ := by
  cases a with
  | literal c plain =>
      obtain rfl : c :: rest = text := spells
      exact readAtom_plain plain position rest
  | any =>
      obtain rfl : '.' :: rest = text := spells
      rw [readAtom]
  | group inside =>
      obtain rfl : '(' :: (inside.chars ++ ')' :: rest) = text := by
        simpa [AtomDerivation.chars] using spells
      rw [readAtom, readExpr_chars inside (position + 1) rfl (follows_cons.2 rfl)]
  | escaped c =>
      obtain rfl : '\\' :: c :: rest = text := spells
      rw [readAtom]
end

end Derivations

/-! ## Both ways of reading agree -/

def ExprDerivation.sequences : ExprDerivation → List (List Regex)
  | single term => [term.items]
  | choice term others => term.items :: others.sequences

theorem ExprDerivation.sequences_ne_nil (d : ExprDerivation) : d.sequences ≠ [] := by
  cases d <;> simp [sequences]

theorem ExprDerivation.together_sequences :
    ∀ d : ExprDerivation, d.sequences.map concat = d.branches
  | single _ => rfl
  | choice term others => congrArg (concat term.items :: ·) others.together_sequences

section Agreement

variable {α : Type} {chars : α → List Char} {ends : Char → Prop} {text rest : List Char}
  {position : Nat} {inner : Group} {outer : List Group}

/-- Whether reading in one pass comes to the same as a rule: what the rule takes
changes the innermost group, and a mistake is the same mistake. -/
def Agrees (position : Nat) (inner : Group) (outer : List Group) (change : α → Group → Group) :
    Except Stop (Reading chars ends text) → Prop
  | .ok r => parseFrom position inner outer text =
      parseFrom (position + (chars r.part).length) (change r.part inner) outer r.rest
  | .error (.mistake cause) => parseFrom position inner outer text = .error cause
  | .error (.noAtom _) => False

theorem Agrees.ok {r : Reading chars ends text} {change : α → Group → Group}
    {position' : Nat} {inner' : Group}
    (moved : parseFrom position inner outer text = parseFrom position' inner' outer r.rest)
    (length : position + (chars r.part).length = position')
    (changed : change r.part inner = inner') :
    Agrees position inner outer change (.ok r) := by
  subst length changed
  exact moved

theorem Agrees.error {stop : Stop} {change : α → Group → Group} {further : List Char}
    {β : Type} {chars' : β → List Char} {ends' : Char → Prop} {change' : β → Group → Group}
    {position' : Nat} {inner' : Group} {outer' : List Group}
    (h : Agrees position' inner' outer' change'
      (.error stop : Except Stop (Reading chars' ends' further)))
    (moved : parseFrom position inner outer text = parseFrom position' inner' outer' further) :
    Agrees position inner outer change (.error stop : Except Stop (Reading chars ends text)) := by
  cases stop with
  | mistake cause => exact moved.trans h
  | noAtom => exact h

def AgreesBelow (bound : Nat) : Prop :=
  ∀ text : List Char, text.length < bound → ∀ position inner outer, inner.items = [] →
    Agrees position inner outer (fun d g => g.readAll d.sequences) (readExpr position text)

theorem AgreesBelow.mono {bound lower : Nat} (h : AgreesBelow bound) (le : lower ≤ bound) :
    AgreesBelow lower :=
  fun text lt => h text (Nat.lt_of_lt_of_le lt le)

theorem parseFrom_operator (position : Nat) (inner : Group) (outer : List Group) (item : Regex)
    (operator : Repetition) (rest : List Char) :
    parseFrom position (inner.push item) outer (operator.char :: rest) =
      parseFrom (position + 1) (inner.push (operator.apply item)) outer rest := by
  cases operator <;> simp [Repetition.char, Repetition.apply, parseFrom, postfixOperator?,
    Group.repeatLast?, Group.push]

theorem parseFrom_readOperators (position : Nat) (inner : Group) (outer : List Group) :
    ∀ (rest : List Char) (factor : FactorDerivation) (spells : factor.chars ++ rest = text),
      parseFrom (position + factor.chars.length) (inner.push factor.tree) outer rest =
        parseFrom (position + (readOperators factor rest spells).part.chars.length)
          (inner.push (readOperators factor rest spells).part.tree) outer
          (readOperators factor rest spells).rest := by
  intro rest
  induction rest with
  | nil => exact fun _ _ => rfl
  | cons c rest ih =>
      intro factor spells
      rw [readOperators]
      split
      next => rfl
      next operator stands =>
        rw [← ih, ← Repetition.char_of_ofChar? stands, parseFrom_operator]
        simp [FactorDerivation.chars, FactorDerivation.tree, Nat.add_assoc]

theorem agrees_readGroup (below : AgreesBelow ('(' :: rest).length) :
    Agrees position inner outer (fun a g => g.push a.tree) (readAtom position ('(' :: rest)) := by
  have inside := below rest (Nat.lt_succ_self _) (position + 1) .empty (inner :: outer) rfl
  rw [readAtom]
  cases result : readExpr (position + 1) rest with
  | error stop =>
      rw [result] at inside
      exact inside.error (by rw [parseFrom])
  | ok r =>
      obtain ⟨part, after, spells, follows⟩ := r
      rw [result] at inside
      cases after with
      | nil =>
          change parseFrom position inner outer ('(' :: rest) = _
          rw [parseFrom, inside, parseFrom]
      | cons c after =>
          obtain rfl : c = ')' := show EndsExpr c from follows_cons.1 follows
          have closed : (Group.empty.readAll part.sequences).close = alternation part.branches := by
            rw [Group.close_readAll part.sequences_ne_nil, together, part.together_sequences]
          refine .ok (by rw [parseFrom, inside, parseFrom]) ?_ (congrArg inner.push closed.symm)
          simp only [AtomDerivation.chars, List.length_append, List.length_cons, List.length_nil]
          omega

/-- An operator at the beginning of a term has nothing to apply to. -/
theorem agrees_readOperator (operator : Repetition) (nothing : inner.items = []) :
    Agrees position inner outer (fun a g => g.push a.tree)
      (readAtom position (operator.char :: rest)) := by
  have refused : readAtom position (operator.char :: rest) =
      .error (.mistake (.unexpected operator.char position)) := by
    cases operator <;> simp [Repetition.char, readAtom, metacharacters, EndsTerm]
  rw [refused]
  change parseFrom position inner outer (operator.char :: rest) = _
  cases operator <;>
    simp [Repetition.char, parseFrom, postfixOperator?, Group.repeatLast?, nothing]

theorem agrees_readAtom {c : Char} (below : AgreesBelow (c :: rest).length)
    (goesOn : ¬EndsTerm c) (fresh : inner.items = [] ∨ EndsFactor c) :
    Agrees position inner outer (fun a g => g.push a.tree) (readAtom position (c :: rest)) := by
  by_cases plain : c ∉ metacharacters
  · rw [readAtom_plain plain]
    exact parseFrom_plain plain position inner outer rest
  · simp only [metacharacters, List.mem_cons, List.not_mem_nil, or_false, not_not] at plain
    rcases plain with rfl | rfl | rfl | rfl | rfl | rfl | rfl | rfl
    · exact absurd (.inl rfl) goesOn
    · exact agrees_readGroup below
    · exact absurd (.inr rfl) goesOn
    · exact agrees_readOperator .star (fresh.resolve_right (Option.some_ne_none _))
    · exact agrees_readOperator .plus (fresh.resolve_right (Option.some_ne_none _))
    · exact agrees_readOperator .opt (fresh.resolve_right (Option.some_ne_none _))
    · rw [readAtom]
      rfl
    · cases rest with
      | nil =>
          rw [readAtom]
          rfl
      | cons c rest =>
          rw [readAtom]
          rfl

theorem agrees_readFactor {c : Char} (below : AgreesBelow (c :: rest).length)
    (goesOn : ¬EndsTerm c) (fresh : inner.items = [] ∨ EndsFactor c) :
    Agrees position inner outer (fun f g => g.push f.tree) (readFactor position (c :: rest)) := by
  have atom : Agrees position inner outer _ _ := agrees_readAtom below goesOn fresh
  rw [readFactor]
  cases result : readAtom position (c :: rest) with
  | error stop =>
      rw [result] at atom
      exact atom.error rfl
  | ok r =>
      rw [result] at atom
      exact atom.trans (parseFrom_readOperators position inner outer r.rest (.atom r.part) r.spells)

theorem agrees_readTerm : ∀ {text : List Char} {position : Nat} {inner : Group},
    AgreesBelow text.length → (inner.items = [] ∨ Follows EndsFactor text) →
      Agrees position inner outer (fun t g => g.pushAll t.items) (readTerm position text) := by
  intro text
  -- on the text that is left, of which every factor takes some
  induction length : text.length using Nat.strongRecOn generalizing text with
  | ind n ih =>
      intro position inner below fresh
      cases text with
      | nil =>
          rw [readTerm]
          rfl
      | cons c rest =>
          rw [readTerm]
          split
          next => rfl
          next goesOn =>
            have factor : Agrees position inner outer _ _ :=
              agrees_readFactor (length ▸ below) goesOn (fresh.imp_right follows_cons.1)
            cases result : readFactor position (c :: rest) with
            | error stop =>
                rw [result] at factor
                exact factor.error rfl
            | ok r =>
                rw [result] at factor
                have shorter := length ▸ r.rest_lt
                have others : Agrees (position + r.part.chars.length) (inner.push r.part.tree)
                    outer _ _ :=
                  ih r.rest.length shorter rfl (below.mono (Nat.le_of_lt shorter)) (.inr r.follows)
                cases later : readTerm (position + r.part.chars.length) r.rest with
                | error stop =>
                    rw [later] at others
                    simp only [later]
                    exact others.error factor
                | ok s =>
                    rw [later] at others
                    simp only [later]
                    refine .ok (factor.trans others) ?_
                      (inner.pushAll_append [r.part.tree] s.part.items)
                    rw [TermDerivation.chars, List.length_append, Nat.add_assoc]

theorem readAll_choice (g : Group) (items : List Regex) (d : ExprDerivation) :
    g.readAll (items :: d.sequences) = (g.pushAll items).nextBranch.readAll d.sequences := by
  cases d <;> rfl

theorem agreesBelow (bound : Nat) : AgreesBelow bound := by
  -- a term of the text holds groups, which are read by the statement for shorter texts
  induction bound with
  | zero => exact fun _ lt => absurd lt (Nat.not_lt_zero _)
  | succ n ih =>
      intro text lt position inner outer fresh
      have term : Agrees position inner outer _ _ :=
        agrees_readTerm (ih.mono (Nat.le_of_lt_succ lt)) (.inl fresh)
      rw [readExpr]
      cases result : readTerm position text with
      | error stop =>
          rw [result] at term
          exact term.error rfl
      | ok t =>
          obtain ⟨part, after, spells, follows⟩ := t
          rw [result] at term
          cases after with
          | nil => exact term
          | cons c after =>
              by_cases bar : c = '|'
              · subst bar
                have shorter : after.length < n := by
                  have both := congrArg List.length spells
                  simp only [List.length_append, List.length_cons] at both
                  omega
                have others := ih after shorter (position + part.chars.length + 1)
                  (inner.pushAll part.items).nextBranch outer rfl
                have passed : parseFrom position inner outer text =
                    parseFrom (position + part.chars.length + 1)
                      (inner.pushAll part.items).nextBranch outer after :=
                  term.trans (by rw [parseFrom])
                simp only [dite_true]
                cases later : readExpr (position + part.chars.length + 1) after with
                | error stop =>
                    rw [later] at others
                    exact others.error passed
                | ok s =>
                    rw [later] at others
                    refine .ok (passed.trans others) ?_ (readAll_choice inner part.items s.part)
                    simp only [ExprDerivation.chars, List.length_append, List.length_cons]
                    omega
              · simp only [bar, dite_false]
                exact term

end Agreement

/-! ## Patterns -/

/-- Reading rule by rule finds the derivation of a pattern. -/
theorem descend_eq_ok_iff {pattern : String} {d : ExprDerivation} :
    descend pattern = .ok d ↔ d.chars = pattern.toList := by
  constructor
  · intro ok
    rw [descend] at ok
    split at ok
    next => cases ok
    next part spells _ _ =>
      obtain rfl := Except.ok.inj ok
      rw [← spells, List.append_nil]
    next => cases ok
  · intro spelled
    have whole : d.chars ++ [] = pattern.toList := by rw [List.append_nil, spelled]
    rw [descend, readExpr_chars d 0 whole (follows_nil _)]

theorem chars_injective : Function.Injective ExprDerivation.chars := by
  intro d e spelled
  have read := descend_eq_ok_iff.2 (String.toList_ofList (l := d.chars)).symm
  rw [descend_eq_ok_iff.2 (spelled.symm.trans String.toList_ofList.symm)] at read
  exact (Except.ok.inj read).symm

/-- Reading in one pass and reading rule by rule give the same tree or the same
mistake. -/
theorem parse_eq_descend (pattern : String) :
    (parse pattern).mapError Stop.mistake = (descend pattern).map ExprDerivation.tree := by
  have agrees := agreesBelow (pattern.toList.length + 1) pattern.toList (Nat.lt_succ_self _) 0
    .empty [] rfl
  rw [parse, descend]
  cases result : readExpr 0 pattern.toList with
  | error stop =>
      rw [result] at agrees
      cases stop with
      | mistake cause =>
          rw [show parseFrom 0 .empty [] pattern.toList = .error cause from agrees]
          rfl
      | noAtom => exact agrees.elim
  | ok r =>
      obtain ⟨part, after, spells, follows⟩ := r
      rw [result] at agrees
      have moved : parseFrom 0 .empty [] pattern.toList =
        parseFrom (0 + part.chars.length) (Group.empty.readAll part.sequences) [] after := agrees
      rw [moved, Nat.zero_add]
      cases after with
      | nil =>
          rw [parseFrom, Group.close_readAll part.sequences_ne_nil, together,
            part.together_sequences]
          rfl
      | cons c after =>
          obtain rfl : c = ')' := show EndsExpr c from follows_cons.1 follows
          rw [parseFrom]
          rfl

theorem parse_eq_ok_iff {pattern : String} {r : Regex} :
    parse pattern = .ok r ↔ ∃ d, descend pattern = .ok d ∧ d.tree = r := by
  have same := parse_eq_descend pattern
  constructor
  · intro ok
    rw [ok] at same
    cases read : descend pattern with
    | error stop =>
        rw [read] at same
        cases same
    | ok d =>
        rw [read] at same
        exact ⟨d, rfl, (Except.ok.inj same).symm⟩
  · rintro ⟨d, read, rfl⟩
    rw [read] at same
    cases parsed : parse pattern with
    | error cause =>
        rw [parsed] at same
        cases same
    | ok r =>
        rw [parsed] at same
        exact congrArg _ (Except.ok.inj same)

/-- The patterns are the texts that the grammar derives, each with its tree, and
no text is derived in two ways.  Reading rule by rule comes to the same as
reading in one pass, so it never asks for an atom where none can begin. -/
theorem parse_eq_ok_iff_derives :
    (∀ pattern r, parse pattern = .ok r ↔ Derives pattern r) ∧
      Function.Injective ExprDerivation.chars ∧
      (∀ pattern, (parse pattern).mapError Stop.mistake =
        (descend pattern).map ExprDerivation.tree) ∧
      ∀ pattern position, descend pattern ≠ .error (.noAtom position) := by
  refine ⟨fun pattern r => ?_, chars_injective, parse_eq_descend, ?_⟩
  · simp only [parse_eq_ok_iff, descend_eq_ok_iff, Derives]
  · intro pattern position stopped
    have same := parse_eq_descend pattern
    rw [stopped] at same
    cases parsed : parse pattern with
    | error cause =>
        rw [parsed] at same
        cases same
    | ok r =>
        rw [parsed] at same
        cases same

end RegularLanguages.Regex
