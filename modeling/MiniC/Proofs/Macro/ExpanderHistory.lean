import MiniC.Macro.Preprocessing
import MiniC.Proofs.Macro.Expansion

/-!
# An expander keeps no trace of what it did

An expander notes what it is doing and must take every note back: at the end of an expansion, when a
macro turns out to contain itself several levels down, when the nesting is too deep, and when a
replacement text has no tokens. `expandEach_run` says that it does: whatever the outcome, the
expander is as before, and the outcome is the one that `expandAll` gives, which has no notes but
passes the active macros on. `leaves_no_trace` is about whole histories.

* `preprocess_kept`: a source is preprocessed at one expander that is kept from line to line as it
  is over a table.
-/

namespace MiniC.Macro.Expander

section Run
variable {α β : Type} {e : Expander}

/-- An outcome that leaves the expander as it was. -/
def answer (e : Expander) : Except Error α → EStateM.Result Error Expander α
  | .ok a => .ok a e
  | .error failure => .error failure e

theorem ofExcept_run (x : Except Error α) :
    (MonadExcept.ofExcept x : Expanding α).run e = answer e x := by
  cases x <;> rfl

theorem get_run (f : Expander → Expanding α) : (get >>= f).run e = (f e).run e := rfl

theorem bind_run {p : Expanding α} {x : Except Error α} {f : α → Expanding β}
    {g : α → Except Error β} (hp : p.run e = answer e x)
    (hf : ∀ a, (f a).run e = answer e (g a)) : (p >>= f).run e = answer e (x >>= g) := by
  rw [EStateM.run_bind, hp]
  cases x with
  | error failure => rfl
  | ok a => exact hf a

theorem leave_enter {name : Bytes} (h : name ∉ e.active) : (e.enter name).leave name = e := by
  have hactive : (e.active.insert name).filter (· != name) = e.active := by
    rw [List.insert_of_not_mem h, List.filter_cons_of_neg (by simp), List.filter_eq_self]
    intro other hother
    rw [bne_iff_ne]
    rintro rfl
    exact h hother
  rw [leave, enter, hactive, Int.add_sub_cancel]

/-- What is done at last is done to the expander that the work before it leaves, whether it fails
or not. -/
theorem finally_run {p : Expanding α} {x : Except Error α} (hp : p.run e = answer e x)
    (f : Expander → Expander) :
    (try p finally modify f : Expanding α).run e = answer (f e) x := by
  have hp : p e = answer e x := hp
  simp only [EStateM.run, tryFinally, tryFinally', Functor.map, EStateM.map, hp]
  cases x <;> rfl

/-- A note is taken back however the work behind it ends. -/
theorem within_run {name : Bytes} (h : name ∉ e.active) {p : Expanding α} {x : Except Error α}
    (hp : p.run (e.enter name) = answer (e.enter name) x) :
    (do modify (enter name); try p finally modify (leave name) : Expanding α).run e =
      answer e x := by
  have hfinally := finally_run hp (leave name)
  rw [leave_enter h] at hfinally
  exact hfinally

end Run

section Expansion
variable {place : Position} {levels fewer : Nat} {e : Expander} {token : Token} {r : Replacement}

theorem expandMacro_run
    (ih : ∀ (fewer : Nat) (e : Expander) (tokens : List Token), e.depth + fewer = maxDepth →
      fewer < levels → (expandEach (expandMacro place levels) tokens).run e =
        answer e (expandAll (expandToken e.table place fewer e.active) tokens))
    (hdepth : e.depth + fewer = maxDepth) (hlevels : fewer < levels + 1)
    (hr : token.replacement? e.table = some r) :
    (expandMacro place (levels + 1) token r).run e =
      answer e (expandToken e.table place fewer e.active token) := by
  rw [expandToken_of_some hr]
  have hrun : (expandMacro place (levels + 1) token r).run e =
      (if e.active.contains token.text then
        throw ⟨place, token.column, .selfExpansion token.text⟩
      else if maxDepth ≤ e.depth then throw ⟨place, token.column, .tooDeep⟩
      else if e.table.text place r = [] then return []
      else do
        let tokens ← MonadExcept.ofExcept (tokensAt place (e.table.text place r))
        modify (enter token.text)
        try expandEach (expandMacro place levels) tokens
        finally modify (leave token.text) : Expanding (List Token)).run e := rfl
  rw [hrun]
  by_cases ha : token.text ∈ e.active
  · rw [if_pos (List.contains_iff_mem.2 ha), if_pos ha]
    rfl
  rw [if_neg (mt List.contains_iff_mem.1 ha), if_neg ha]
  cases fewer with
  | zero =>
    rw [if_pos (by omega)]
    rfl
  | succ fewer =>
    rw [if_neg (by omega)]
    by_cases htext : e.table.text place r = []
    · rw [if_pos htext, htext]
      rfl
    rw [if_neg htext]
    refine bind_run (ofExcept_run _) fun tokens => within_run ha ?_
    have hinner := ih fewer (e.enter token.text) tokens (by simp only [enter]; omega) (by omega)
    rwa [show (e.enter token.text).active = token.text :: e.active from
      List.insert_of_not_mem ha] at hinner

theorem expandOne_run {expandMacro : Token → Replacement → Expanding (List Token)}
    (h : ∀ r, token.replacement? e.table = some r →
      (expandMacro token r).run e =
        answer e (expandToken e.table place fewer e.active token)) :
    (expandOne expandMacro token).run e =
      answer e (expandToken e.table place fewer e.active token) := by
  rw [expandOne, get_run]
  split
  · next r hkind hlookup => exact h r (Token.replacement?_eq_some.2 ⟨hkind, hlookup⟩)
  · next hnot =>
    have hnone : token.replacement? e.table = none := by
      rw [Option.eq_none_iff_forall_ne_some]
      intro r hr
      obtain ⟨hkind, hlookup⟩ := Token.replacement?_eq_some.1 hr
      exact hnot r hkind hlookup
    rw [expandToken_of_none hnone]
    rfl

/-- **Every note is taken back, and the notes do the work of the arguments.** -/
theorem expandEach_run (place : Position) (levels : Nat) : ∀ (fewer : Nat) (e : Expander)
    (tokens : List Token), e.depth + fewer = maxDepth → fewer < levels →
    (expandEach (expandMacro place levels) tokens).run e =
      answer e (expandAll (expandToken e.table place fewer e.active) tokens) := by
  -- on the bound, for the replacement texts, and inside on the tokens
  induction levels with
  | zero => exact fun _ _ _ _ h => absurd h (Nat.not_lt_zero _)
  | succ levels ih =>
    intro fewer e tokens hdepth hlevels
    induction tokens with
    | nil => rfl
    | cons token tokens ihtokens =>
      rw [expandAll_cons, expandEach]
      refine bind_run ?_ fun front => bind_run ihtokens fun back => rfl
      exact expandOne_run fun r hr => expandMacro_run ih hdepth hlevels hr

/-- **An expander at rest does what is done anew for each line, and is at rest again.** -/
theorem expandLine_run (t : Table) (place : Position) (line : Bytes) :
    (expandLine place line).run (new t) = answer (new t) (Macro.expandLine t place line) := by
  refine bind_run (ofExcept_run _) fun tokens => bind_run ?_ fun out => rfl
  exact expandEach_run place (maxDepth + 1) maxDepth (new t) tokens (Int.zero_add _) (by decide)

end Expansion

/-! ### Histories -/

/-- The expander that a piece of work leaves, whether or not it failed. -/
def left {α : Type} : EStateM.Result Error Expander α → Expander
  | .ok _ e => e
  | .error _ e => e

/-- What a piece of work returns. -/
def returned {α : Type} : EStateM.Result Error Expander α → Except Error α
  | .ok a _ => .ok a
  | .error failure _ => .error failure

/-- The expander after a sequence of steps, any of which may have failed. -/
def after (e : Expander) (steps : List Step) : Expander :=
  steps.foldl (fun e step => left ((perform step).run e)) e

/-- The table after a step: a definition that is refused and a line leave it as it is. -/
def Step.tableAfter (t : Table) : Step → Table
  | .define name value => t.define name value
  | .undefine name => t.undefine name
  | .directive arguments _ => (t.defineFrom arguments).toOption.getD t
  | .expand _ _ => t

theorem perform_expand_run (t : Table) (line : Bytes) (place : Position) :
    (perform (.expand line place)).run (new t) =
      answer (new t) (some <$> Macro.expandLine t place line) := by
  rw [map_eq_pure_bind]
  exact bind_run (expandLine_run t place line) fun text => rfl

theorem perform_directive_ok {t t' : Table} {arguments : Bytes}
    (h : t.defineFrom arguments = .ok t') (place : Position) :
    (perform (.directive arguments place)).run (new t) = .ok none (new t') := by
  rw [perform, get_run]
  simp only [new, h]
  rfl

theorem perform_directive_error {t : Table} {arguments name : Bytes}
    (h : t.defineFrom arguments = .error name) (place : Position) :
    (perform (.directive arguments place)).run (new t) =
      .error ⟨place, 0, .badName name⟩ (new t) := by
  rw [perform, get_run]
  simp only [new, h]
  rfl

theorem left_answer {α : Type} (e : Expander) (x : Except Error α) : left (answer e x) = e := by
  cases x <;> rfl

theorem returned_answer {α : Type} (e : Expander) (x : Except Error α) :
    returned (answer e x) = x := by
  cases x <;> rfl

/-- A step leaves an expander at rest over the table that it is meant to leave. -/
theorem left_perform (t : Table) (step : Step) :
    left ((perform step).run (new t)) = new (step.tableAfter t) := by
  cases step with
  | define name value => rfl
  | undefine name => rfl
  | directive arguments place =>
    rw [Step.tableAfter]
    cases h : t.defineFrom arguments with
    | ok t' => rw [perform_directive_ok h]; rfl
    | error name => rw [perform_directive_error h]; rfl
  | expand line place => rw [perform_expand_run, left_answer, Step.tableAfter]

theorem after_new (t : Table) (steps : List Step) :
    (new t).after steps = new (steps.foldl Step.tableAfter t) := by
  induction steps generalizing t with
  | nil => rfl
  | cons step steps ih => rw [after, List.foldl_cons, left_perform, ← after, ih, List.foldl_cons]

/-- **Nothing is left behind by what an expander did, whether it succeeded or failed.** After every
history no macro is active and the depth is zero. The table is the one that the definitions and
removals made. A directive that is refused does not change it, and neither does a line. A line gives
what a new expander over the table gives, and that is its expansion. -/
theorem leaves_no_trace (t : Table) (steps : List Step) :
    let e := (new t).after steps
    e.active = [] ∧ e.depth = 0 ∧ e.table = steps.foldl Step.tableAfter t ∧
    (∀ arguments place failure e', (perform (.directive arguments place)).run e =
      .error failure e' → e'.table = e.table) ∧
    ∀ line place,
      (left ((perform (.expand line place)).run e)).table = e.table ∧
      returned ((perform (.expand line place)).run e) =
        returned ((perform (.expand line place)).run (new e.table)) ∧
      returned ((perform (.expand line place)).run e) =
        some <$> Macro.expandLine e.table place line := by
  intro e
  have he : e = new (steps.foldl Step.tableAfter t) := after_new t steps
  rw [he]
  refine ⟨rfl, rfl, rfl, ?_, ?_⟩
  · intro arguments place failure e' h
    cases hdefine : (steps.foldl Step.tableAfter t).defineFrom arguments with
    | ok t' =>
      rw [perform_directive_ok hdefine] at h
      cases h
    | error name =>
      rw [perform_directive_error hdefine] at h
      cases h
      rfl
  · intro line place
    rw [perform_expand_run, left_answer, returned_answer]
    refine ⟨rfl, ?_, rfl⟩
    rw [perform_expand_run, returned_answer]
    rfl

/-- Two macros that contain each other, and a name that is none: the line behind them expands as if
nothing had failed. -/
theorem leaves_no_trace_mutual :
    let place : Position := ⟨[], 1⟩
    let loop : List Step := [.define (ascii "A") (ascii "B+1"), .define (ascii "B") (ascii "A")]
    let failures : List Step := [.expand (ascii "A") place, .directive (ascii "1") place]
    let start := new ⟨⟨1, 1, 1, 0, 0, 0⟩, []⟩
    returned ((perform (.expand (ascii "A") place)).run (start.after loop)) =
        .error ⟨place, 1, .selfExpansion (ascii "A")⟩ ∧
      returned ((perform (.expand (ascii "A") place)).run
        (start.after (loop ++ failures ++ [.undefine (ascii "B")]))) =
          .ok (some (ascii "B+1")) := by
  intro place loop failures start
  obtain ⟨-, -, hbefore, -, hfails⟩ := leaves_no_trace ⟨⟨1, 1, 1, 0, 0, 0⟩, []⟩ loop
  obtain ⟨-, -, hbehind, -, hexpands⟩ := leaves_no_trace ⟨⟨1, 1, 1, 0, 0, 0⟩, []⟩
    (loop ++ failures ++ [.undefine (ascii "B")])
  refine ⟨(hfails (ascii "A") place).2.2.trans ?_, (hexpands (ascii "A") place).2.2.trans ?_⟩
  · rw [hbefore]
    rfl
  · rw [hbehind]
    rfl

/-! ### Preprocessing at one expander -/

/-- An outcome that leaves an expander at rest, over the table before it if it is a failure. -/
def settled {α : Type} (t : Table) : Except Error (α × Table) → EStateM.Result Error Expander α
  | .ok (a, t') => .ok a (new t')
  | .error failure => .error failure (new t)

theorem answer_settled {α : Type} (t : Table) (x : Except Error α) :
    answer (new t) x = settled t (x.map fun a => (a, t)) := by
  cases x <;> rfl

/-- **One line is processed at an expander as over its table.** -/
theorem processLine_run (t : Table) (place : Position) (line : Bytes) :
    (processLine place line).run (new t) = settled t (Macro.processLine t place line) := by
  rw [processLine, Macro.processLine]
  cases Directive.ofLine? line with
  | some d =>
    obtain ⟨keyword, arguments⟩ := d
    cases keyword with
    | define =>
      simp only [EStateM.run_bind]
      cases h : t.defineFrom arguments with
      | ok t' => rw [perform_directive_ok h]; rfl
      | error name => rw [perform_directive_error h]; rfl
    | _ => rfl
  | none =>
    cases Directive.isHashLine line with
    | true => rfl
    | false => exact (expandLine_run t place line).trans (answer_settled t _)

theorem processFrom_run (file : Bytes) (lines : List Bytes) : ∀ (number : Nat) (done : List Bytes)
    (t : Table), (processFrom file number done lines).run (new t) =
      answer (new (Macro.processFrom file number done t lines).2)
        (Macro.processFrom file number done t lines).1 := by
  induction lines with
  | nil => exact fun number done t => rfl
  | cons line lines ih =>
    intro number done t
    rw [processFrom, EStateM.run_bind, processLine_run, Macro.processFrom]
    cases Macro.processLine t ⟨file, Int64.ofNat number⟩ line with
    | error failure => rfl
    | ok result => exact ih (number + 1) (result.1 :: done) result.2

theorem processLines_run (t : Table) (file : Bytes) (lines : List Bytes) :
    (processLines file lines).run (new t) =
      answer (new (Macro.processLines t file lines).2) (Macro.processLines t file lines).1 := by
  rw [processLines, EStateM.run_bind, processFrom_run, Macro.processLines]
  obtain ⟨result, t'⟩ := Macro.processFrom (reportedFile file) 1 [] t lines
  cases result <;> rfl

/-- **Preprocessing runs one expander over all lines of a source.** -/
theorem preprocess_kept (source file : Bytes) (options : Options) :
    preprocess source file options =
      returned ((processLines file (LogicalLine.ofSource source)).run (new options.table)) := by
  rw [processLines_run, returned_answer, preprocess]

end MiniC.Macro.Expander
