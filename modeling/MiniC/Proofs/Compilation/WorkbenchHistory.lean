import Mathlib.Data.List.DropRight
import MiniC.Proofs.Compilation.Stages
import MiniC.Workbench

/-!
# The workbench reflects its history

A buffer with a workbench attached to it goes through actions: its text is set or saved, the
workbench compiles or runs. `after_reflects`: whatever happened, what is enabled can be read off the
history. The workbench can compile while the text is not empty. It can run if the last call of the
compiler succeeded and the text was never empty since; then it gives the bytes of what was compiled
at that call, however often it runs and whatever the text became in the meantime.

The buffer and the workbench have flags and a result of their own, kept in step by notices. What
they must hold after a history is `Reflects`, and `Reflects.perform` is one more action.
-/

namespace MiniC.Session

/-! ### Histories -/

/-- What can happen to a buffer with a workbench on it. -/
inductive Action where
  | setText (text : Bytes)
  | markSaved
  | compile
  | run
  deriving DecidableEq

/-- A session in which the workbench is attached to the buffer. -/
def opened (text file : Bytes) (options : Compilation.Options) : Session :=
  (start text file options).attach

/-- The session after an action. -/
def perform (s : Session) : Action → Session
  | .setText text => (s.setText text).2
  | .markSaved => s.markSaved.2
  | .compile => s.compile.2
  | .run => s.run.2

/-- The session after actions. -/
def after (s : Session) (actions : List Action) : Session := actions.foldl perform s

/-- The text after an action on a buffer with the given text. -/
def Action.textAfter (text : Bytes) : Action → Bytes
  | .setText new => new
  | .markSaved => text
  | .compile => text
  | .run => text

/-- The text after a history: the one that was set last. -/
def textAfter (text : Bytes) (actions : List Action) : Bytes := actions.foldl Action.textAfter text

/-- The saved text after a history: the text when it was saved last. -/
def savedAfter (text : Bytes) (actions : List Action) : Bytes :=
  textAfter text (actions.rdropWhile (· != .markSaved))

/-- The compilation that counts after a history: the last call of the compiler gave it, and the text
has not been empty since. -/
def Counts (text file : Bytes) (options : Compilation.Options) (actions : List Action)
    (c : Compilation.Compiled) : Prop :=
  ∃ before since, actions = before ++ .compile :: since ∧ .compile ∉ since ∧
    ((opened text file options).after before).compile.1 = .ok c ∧
    ∀ front, front <+: since → textAfter text (before ++ .compile :: front) ≠ []

section History
variable {text file : Bytes} {options : Compilation.Options} {actions : List Action} {a : Action}
  {c : Compilation.Compiled}

theorem after_concat (s : Session) (actions : List Action) (a : Action) :
    s.after (actions ++ [a]) = (s.after actions).perform a := by
  rw [after, List.foldl_append]
  rfl

theorem textAfter_concat (text : Bytes) (actions : List Action) (a : Action) :
    textAfter text (actions ++ [a]) = a.textAfter (textAfter text actions) := by
  rw [textAfter, List.foldl_append]
  rfl

theorem savedAfter_concat (text : Bytes) (actions : List Action) (a : Action) :
    savedAfter text (actions ++ [a]) =
      if a = .markSaved then textAfter text actions else savedAfter text actions := by
  unfold savedAfter
  rw [List.rdropWhile_concat]
  by_cases h : a = .markSaved
  · rw [if_neg (by simp [h]), if_pos h, textAfter_concat, h]
    rfl
  · rw [if_pos (by simp [h]), if_neg h]

/-- A call of the compiler within `actions ++ [a]` is the last action or one of `actions`. -/
theorem split_concat {before since : List Action}
    (h : actions ++ [a] = before ++ .compile :: since) :
    (before = actions ∧ a = .compile ∧ since = []) ∨
      ∃ since', since = since' ++ [a] ∧ actions = before ++ .compile :: since' := by
  rcases List.eq_nil_or_concat since with rfl | ⟨since', x, rfl⟩
  · obtain ⟨h1, h2⟩ := List.append_inj' h rfl
    exact Or.inl ⟨h1.symm, List.singleton_inj.1 h2, rfl⟩
  · have h' : actions ++ [a] = (before ++ .compile :: since') ++ [x] := by simpa using h
    obtain ⟨h1, h2⟩ := List.append_inj' h' rfl
    obtain rfl := List.singleton_inj.1 h2
    exact Or.inr ⟨since', List.concat_eq_append, h1⟩

/-- With a call of the compiler the earlier ones no longer count. -/
theorem counts_concat_compile : Counts text file options (actions ++ [.compile]) c ↔
    ((opened text file options).after actions).compile.1 = .ok c ∧ textAfter text actions ≠ [] := by
  have htext : textAfter text (actions ++ [.compile]) = textAfter text actions :=
    textAfter_concat text actions .compile
  constructor
  · rintro ⟨before, since, heq, hlast, hcall, hfull⟩
    rcases split_concat heq with ⟨rfl, -, rfl⟩ | ⟨since', rfl, -⟩
    · have hnow := hfull [] (List.prefix_refl _)
      rw [htext] at hnow
      exact ⟨hcall, hnow⟩
    · exact absurd (List.mem_append_right _ (List.mem_singleton_self _)) hlast
  · rintro ⟨hcall, hfull⟩
    refine ⟨actions, [], rfl, List.not_mem_nil, hcall, fun front hfront => ?_⟩
    rw [List.prefix_nil.1 hfront, htext]
    exact hfull

/-- With any other action the same compilation counts, unless the text is empty now. -/
theorem counts_concat (ha : a ≠ .compile) : Counts text file options (actions ++ [a]) c ↔
    Counts text file options actions c ∧ textAfter text (actions ++ [a]) ≠ [] := by
  constructor
  · rintro ⟨before, since, heq, hlast, hcall, hfull⟩
    rcases split_concat heq with ⟨-, rfl, -⟩ | ⟨since', rfl, rfl⟩
    · exact absurd rfl ha
    · have hlast' : .compile ∉ since' := fun h => hlast (List.mem_append_left _ h)
      refine ⟨⟨before, since', rfl, hlast', hcall, fun front hfront => ?_⟩, ?_⟩
      · exact hfull front (hfront.trans (List.prefix_append _ _))
      · have hnow := hfull (since' ++ [a]) (List.prefix_refl _)
        rwa [← List.cons_append, ← List.append_assoc] at hnow
  · rintro ⟨⟨before, since, rfl, hlast, hcall, hfull⟩, hnow⟩
    refine ⟨before, since ++ [a], by simp, ?_, hcall, fun front hfront => ?_⟩
    · rw [List.mem_append, List.mem_singleton]
      rintro (h | h)
      · exact hlast h
      · exact ha h.symm
    · rcases List.prefix_concat_iff.1 hfront with rfl | hfront
      · rwa [← List.cons_append, ← List.append_assoc]
      · exact hfull front hfront

theorem Counts.text_ne_nil (h : Counts text file options actions c) :
    textAfter text actions ≠ [] := by
  obtain ⟨before, since, rfl, -, -, hfull⟩ := h
  exact hfull since (List.prefix_refl _)

/-- At most one compilation counts. -/
theorem Counts.unique {c' : Compilation.Compiled} (h : Counts text file options actions c)
    (h' : Counts text file options actions c') : c = c' := by
  induction actions using List.reverseRecOn with
  | nil =>
    obtain ⟨before, since, heq, -⟩ := h
    simp at heq
  | append_singleton actions a ih =>
    by_cases ha : a = .compile
    · subst ha
      have hc := (counts_concat_compile.1 h).1
      rw [(counts_concat_compile.1 h').1] at hc
      injection hc with hc
      exact hc.symm
    · exact ih ((counts_concat ha).1 h).1 ((counts_concat ha).1 h').1

end History

/-! ### What the session holds -/

/-- The session holds what the history asks for. A run replaces the compilation by its initialised
image, so the one that is held agrees with the one that counts only once both are initialised. -/
structure Reflects (text file : Bytes) (options : Compilation.Options) (actions : List Action)
    (s : Session) : Prop where
  attached : s.attached = true
  text_eq : s.buffer.text = textAfter text actions
  saved_eq : s.buffer.saved = savedAfter text actions
  file_eq : s.workbench.file = file
  options_eq : s.workbench.options = options
  hasContent_eq : s.workbench.hasContent = s.buffer.hasContent
  unsaved_eq : s.workbench.unsaved = s.buffer.isUnsaved
  last_none : s.workbench.last = none → ∀ c, ¬ Counts text file options actions c
  last_some : ∀ held, s.workbench.last = some held →
    ∃ c, Counts text file options actions c ∧ held.image.initialized = c.image.initialized

/-- A call of the compiler leaves its result with the workbench. -/
theorem compile_snd (s : Session) : s.compile.2 =
    { s with workbench := { s.workbench with last := s.compile.1.toOption } } := by
  unfold compile Workbench.compile
  split_ifs
  · rcases Compilation.compile s.buffer.text s.workbench.file s.workbench.options with e | c
    · rfl
    · rfl
  · rfl

theorem run_snd (s : Session) : s.run.2 =
    { s with workbench := { s.workbench with
      last := s.workbench.last.map fun c => { c with image := c.image.initialized } } } := by
  obtain ⟨buffer, ⟨file, options, hasContent, unsaved, last⟩, attached, listeners⟩ := s
  cases last <;> rfl

namespace Reflects
variable {text file : Bytes} {options : Compilation.Options} {actions : List Action} {s : Session}
  {c : Compilation.Compiled}

theorem hasContent_iff (h : Reflects text file options actions s) :
    s.workbench.hasContent = true ↔ textAfter text actions ≠ [] := by
  rw [h.hasContent_eq, Buffer.hasContent, h.text_eq]
  simp

theorem unsaved_iff (h : Reflects text file options actions s) :
    s.workbench.unsaved = true ↔ textAfter text actions ≠ savedAfter text actions := by
  rw [h.unsaved_eq, Buffer.isUnsaved, h.text_eq, h.saved_eq, bne_iff_ne]

/-- A call of the compiler sees the text of the history. -/
theorem compile_fst (h : Reflects text file options actions s) : s.compile.1 =
    if textAfter text actions = [] then .error .noContent
    else (Compilation.compile (textAfter text actions) file options).mapError .compilation := by
  have heq : s.compile.1 = (s.workbench.compile s.buffer.text).1 := rfl
  rw [heq, Workbench.compile, h.text_eq, h.file_eq, h.options_eq]
  by_cases hempty : textAfter text actions = []
  · rw [if_neg (by rw [h.hasContent_iff]; simpa using hempty), if_pos hempty]
  · rw [if_pos (h.hasContent_iff.2 hempty), if_neg hempty]
    rcases Compilation.compile (textAfter text actions) file options with e | c
    · rfl
    · rfl

theorem compile_ok_iff (h : Reflects text file options actions s) :
    s.compile.1 = .ok c ↔
      textAfter text actions ≠ [] ∧
        Compilation.compile (textAfter text actions) file options = .ok c := by
  rw [h.compile_fst]
  split_ifs with hempty
  · simp [hempty]
  · rcases Compilation.compile (textAfter text actions) file options with e | c
    · simp [Except.mapError]
    · simp [Except.mapError, hempty]

theorem compile_error_iff (h : Reflects text file options actions s) :
    s.compile.1 = .error .noContent ↔ textAfter text actions = [] := by
  rw [h.compile_fst]
  split_ifs with hempty
  · simp [hempty]
  · rcases Compilation.compile (textAfter text actions) file options with e | c
    · simp [Except.mapError, hempty]
    · simp [Except.mapError, hempty]

/-- The session when the workbench is attached. -/
theorem opened (text file : Bytes) (options : Compilation.Options) :
    Reflects text file options [] (Session.opened text file options) where
  attached := rfl
  text_eq := rfl
  saved_eq := rfl
  file_eq := rfl
  options_eq := rfl
  hasContent_eq := rfl
  unsaved_eq := rfl
  last_none := by
    rintro - c ⟨before, since, heq, -⟩
    simp at heq
  last_some := by
    intro held hheld
    have hnone : (Session.opened text file options).workbench.last = none := ite_self none
    rw [hnone] at hheld
    cases hheld

/-- A change of the buffer is told to the workbench, which forgets its compilation if the text is
empty now. -/
theorem change (h : Reflects text file options actions s) {a : Action} (ha : a ≠ .compile)
    {b : Buffer} (htext : b.text = textAfter text (actions ++ [a]))
    (hsaved : b.saved = savedAfter text (actions ++ [a])) :
    Reflects text file options (actions ++ [a]) (s.change b).2 := by
  have heq : (s.change b).2 =
      { s with buffer := b, workbench := s.workbench.notify b.notice } := by
    simp [Session.change, Session.notify, h.attached]
  have hcontent : b.hasContent = true ↔ textAfter text (actions ++ [a]) ≠ [] := by
    rw [Buffer.hasContent, htext]
    simp
  have hlast : (s.workbench.notify b.notice).last =
      if b.hasContent then s.workbench.last else none := rfl
  rw [heq]
  refine ⟨h.attached, htext, hsaved, h.file_eq, h.options_eq, rfl, rfl, fun hnone c hc => ?_,
    fun held hheld => ?_⟩
  · obtain ⟨hbefore, hnow⟩ := (counts_concat ha).1 hc
    rw [hlast, if_pos (hcontent.2 hnow)] at hnone
    exact h.last_none hnone c hbefore
  · rw [hlast] at hheld
    split_ifs at hheld with hnow
    obtain ⟨c, hc, himage⟩ := h.last_some held hheld
    exact ⟨c, (counts_concat ha).2 ⟨hc, hcontent.1 hnow⟩, himage⟩

/-- An action that leaves the buffer alone changes the compilation at most. -/
theorem setLast (h : Reflects text file options actions s) {a : Action}
    (htext : textAfter text (actions ++ [a]) = textAfter text actions) (ha : a ≠ .markSaved)
    {last : Option Compilation.Compiled}
    (hnone : last = none → ∀ c, ¬ Counts text file options (actions ++ [a]) c)
    (hsome : ∀ held, last = some held →
      ∃ c, Counts text file options (actions ++ [a]) c ∧
        held.image.initialized = c.image.initialized) :
    Reflects text file options (actions ++ [a])
      { s with workbench := { s.workbench with last := last } } := by
  have hsaved : savedAfter text (actions ++ [a]) = savedAfter text actions := by
    rw [savedAfter_concat, if_neg ha]
  exact ⟨h.attached, h.text_eq.trans htext.symm, h.saved_eq.trans hsaved.symm, h.file_eq,
    h.options_eq, h.hasContent_eq, h.unsaved_eq, hnone, hsome⟩

/-- A run initialises an image that may be initialised already. -/
theorem run (h : Reflects text file options actions s) :
    Reflects text file options (actions ++ [.run]) s.run.2 := by
  have htext : textAfter text (actions ++ [.run]) = textAfter text actions :=
    textAfter_concat text actions .run
  have hcounts : ∀ c, Counts text file options (actions ++ [.run]) c ↔
      Counts text file options actions c := by
    intro c
    rw [counts_concat (by decide), htext]
    exact and_iff_left_of_imp Counts.text_ne_nil
  rw [run_snd]
  refine h.setLast htext (by decide) (fun hnone c hc => ?_) (fun held hheld => ?_)
  · exact h.last_none (Option.map_eq_none_iff.1 hnone) c ((hcounts c).1 hc)
  · obtain ⟨before, hbefore, rfl⟩ := Option.map_eq_some_iff.1 hheld
    obtain ⟨c, hc, himage⟩ := h.last_some before hbefore
    exact ⟨c, (hcounts c).2 hc, himage⟩

/-- A call of the compiler replaces the compilation, by nothing if it fails. -/
theorem compile
    (h : Reflects text file options actions ((Session.opened text file options).after actions)) :
    Reflects text file options (actions ++ [.compile])
      ((Session.opened text file options).after actions).compile.2 := by
  rw [compile_snd]
  refine h.setLast (textAfter_concat text actions .compile) (by decide) (fun hnone c hc => ?_)
    (fun held hheld => ?_)
  · rw [(counts_concat_compile.1 hc).1] at hnone
    cases hnone
  · have hcall : ((Session.opened text file options).after actions).compile.1 = .ok held := by
      generalize ((Session.opened text file options).after actions).compile.1 = result at hheld
      cases result <;> cases hheld
      rfl
    exact ⟨held, counts_concat_compile.2 ⟨hcall, (h.compile_ok_iff.1 hcall).1⟩, rfl⟩

/-- Whether there is something to run, and what a run gives. -/
theorem run_fst (h : Reflects text file options actions s) :
    (s.workbench.canRun = false ∧ s.run.1 = .error .notCompiled ∧
      ∀ c, ¬ Counts text file options actions c) ∨
    ∃ c, Counts text file options actions c ∧ s.workbench.canRun = true ∧
      s.run.1 = .ok c.image.initialized := by
  have heq : s.run.1 = s.workbench.run.1 := rfl
  rw [heq, Workbench.run, Workbench.canRun]
  rcases hlast : s.workbench.last with - | held
  · exact Or.inl ⟨rfl, rfl, h.last_none hlast⟩
  · obtain ⟨c, hc, himage⟩ := h.last_some held hlast
    exact Or.inr ⟨c, hc, rfl, congrArg Except.ok himage⟩

end Reflects

/-- The session holds what its history asks for. -/
theorem reflects_after (text file : Bytes) (options : Compilation.Options) (actions : List Action) :
    Reflects text file options actions ((opened text file options).after actions) := by
  induction actions using List.reverseRecOn with
  | nil => exact .opened text file options
  | append_singleton actions a ih =>
    rw [after_concat]
    cases a with
    | setText new =>
      exact ih.change (by simp) (textAfter_concat text actions (.setText new)).symm
        (ih.saved_eq.trans (savedAfter_concat text actions (.setText new)).symm)
    | markSaved =>
      exact ih.change (by decide) (ih.text_eq.trans (textAfter_concat text actions .markSaved).symm)
        (ih.text_eq.trans (savedAfter_concat text actions .markSaved).symm)
    | compile => exact ih.compile
    | run => exact ih.run

/-- **What is enabled reflects the history,** and so does what compiling and running give. -/
theorem after_reflects (text file : Bytes) (options : Compilation.Options) (actions : List Action) :
    let s := (opened text file options).after actions
    (s.workbench.canCompile = true ↔ textAfter text actions ≠ []) ∧
    (s.workbench.unsaved = true ↔ textAfter text actions ≠ savedAfter text actions) ∧
    (s.workbench.canRun = true ↔ ∃ c, Counts text file options actions c) ∧
    (s.run.1 = .error .notCompiled ↔ s.workbench.canRun = false) ∧
    (∀ c, Counts text file options actions c → ∃ image, s.run.1 = .ok image ∧
      image.used = c.image.initialized.used ∧ image.used.length = c.image.staticSize) ∧
    (s.compile.1 = .error .noContent ↔ textAfter text actions = []) ∧
    (∀ c, s.compile.1 = .ok c ↔ textAfter text actions ≠ [] ∧
      Compilation.compile (textAfter text actions) file options = .ok c) := by
  intro s
  have h : Reflects text file options actions s := reflects_after text file options actions
  refine ⟨h.hasContent_iff, h.unsaved_iff, ?_, ?_, ?_, h.compile_error_iff,
    fun c => h.compile_ok_iff⟩
  · rcases h.run_fst with ⟨hcan, -, hnone⟩ | ⟨c, hc, hcan, -⟩
    · simp [hcan, hnone]
    · exact ⟨fun _ => ⟨c, hc⟩, fun _ => hcan⟩
  · rcases h.run_fst with ⟨hcan, hrun, -⟩ | ⟨c, -, hcan, hrun⟩
    · simp [hcan, hrun]
    · simp [hcan, hrun]
  · intro c hc
    rcases h.run_fst with ⟨-, -, hnone⟩ | ⟨c', hc', -, hrun⟩
    · exact absurd hc (hnone c)
    · obtain rfl := hc.unique hc'
      obtain ⟨before, -, -, -, hcall, -⟩ := hc
      have hcompile := ((reflects_after text file options before).compile_ok_iff.1 hcall).2
      exact ⟨_, hrun, rfl, Compilation.length_used hcompile⟩

end MiniC.Session
