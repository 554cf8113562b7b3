import LetPoly.Session.Basic

/-! # What an input does to a session

Of a session, the types, the values and the prelude are seen from the outside; sessions
that agree in these are the `Same`.  The context is not: it holds what inference keeps
from one call to the next.

An input makes a definition, or it leaves the session the same, or it is `:reset`
(`eval_cases`).  A definition fails and leaves the session the same, or it has the types
that inference gives and the values that evaluation gives (`define_cases`).  Whatever is
kept by definitions and by loading a prelude is therefore kept by every input.  What fails
in evaluation has been accepted by inference before (`eval_running`).
-/

namespace LetPoly

namespace Session

/-- **The session after some inputs.** -/
def run (s : Session) (inputs : List String) : Session :=
  inputs.foldl (fun s input => (s.eval input).2) s

theorem run_cons (s : Session) (input : String) (inputs : List String) :
    s.run (input :: inputs) = (s.eval input).2.run inputs := by
  simp only [run, List.foldl_cons]

/-- The second session has the types, the values and the prelude of the first. -/
structure Same (s s' : Session) : Prop where
  types : s'.types = s.types
  values : s'.values = s.values
  prelude : s'.prelude = s.prelude

/-! ## Definitions -/

/-- A definition fails and changes nothing, or it has the types that inference gives and
the values that evaluation gives. -/
theorem define_cases (s : Session) (d : Definition) :
    (∃ f, (s.define d).1 = .error f ∧ s.Same (s.define d).2) ∨
    ∃ σ v context, (s.define d).1 = .ok (.defined d σ v) ∧
      s.context.define s.types (some d) = (.ok ((s.define d).2.types, σ), context) ∧
      Value.evalDefinition Value.programBound s.values d = .ok ((s.define d).2.values, v) ∧
      (s.define d).2.context.supply = context.supply ∧
      (s.define d).2.prelude = s.prelude := by
  rw [define]
  rcases s.context.define s.types (some d) with ⟨_ | ⟨types, σ⟩, context⟩
  · exact .inl ⟨_, rfl, rfl, rfl, rfl⟩
  · cases Value.evalDefinition Value.programBound s.values d with
    | error e => exact .inl ⟨_, rfl, rfl, rfl, rfl⟩
    | ok r => exact .inr ⟨σ, r.2, context, rfl, rfl, rfl, rfl, rfl⟩

theorem prelude_define (s : Session) (d : Definition) :
    (s.define d).2.prelude = s.prelude := by
  obtain ⟨f, -, hsame⟩ | ⟨σ, v, context, -, -, -, -, hprelude⟩ := s.define_cases d
  · exact hsame.prelude
  · exact hprelude

/-- A definition that is made, by its parts. -/
theorem define_of_parts (s : Session) (d : Definition) {types : TypeEnv} {σ : Ty} {values : Env}
    {v : Value} (htype : (s.context.define s.types (some d)).1 = .ok (types, σ))
    (hvalue : Value.evalDefinition Value.programBound s.values d = .ok (values, v)) :
    s.define d = (.ok (.defined d σ v),
      { s with
        context := (s.context.define s.types (some d)).2.tell (.defined d.pat σ)
        types
        values }) := by
  have hdefine : s.context.define s.types (some d) =
      (.ok (types, σ), (s.context.define s.types (some d)).2) := Prod.ext htype rfl
  rw [define, hdefine, hvalue]

/-- **An input that makes a definition**, by its parts. -/
theorem eval_of_definition (s : Session) (input : String) (d : Definition) (types : TypeEnv)
    (σ : Ty) (values : Env) (v : Value) (hcommand : isCommand (Text.trim input) = false)
    (hparse : Expr.parseProgram (Text.trim input).toList = .ok d.expr)
    (htype : (s.context.define s.types (some d)).1 = .ok (types, σ))
    (hvalue : Value.evalDefinition Value.programBound s.values d = .ok (values, v)) :
    s.eval input = (.ok (.defined d σ v),
      { s with
        context := (s.context.define s.types (some d)).2.tell (.defined d.pat σ)
        types
        values }) := by
  have hexec : s.eval input = s.define d := by
    simp only [eval, hcommand, hparse, exec]
    rfl
  rw [hexec, s.define_of_parts d htype hvalue]

/-! ## The prelude -/

/-- What the first source of a prelude does: it fails, having done nothing or a definition
that failed, or it is loaded and the others after it. -/
theorem loadFrom_cases (s : Session) (i : Nat) (source : String) (sources : List String) :
    (∃ f, (s.loadFrom i (source :: sources)).1 = .error (.within (.prelude i) f) ∧
      ((s.loadFrom i (source :: sources)).2 = s ∨
        ∃ d, (s.loadFrom i (source :: sources)).2 = (s.define d).2)) ∨
    ∃ e d o s₁, Expr.parseProgram source.toList = .ok e ∧ e.definition? = some d ∧
      s.define d = (.ok o, s₁) ∧ s.loadFrom i (source :: sources) =
        loadFrom { s₁ with prelude := s₁.prelude ++ [source] } (i + 1) sources := by
  rw [loadFrom]
  cases hparse : Expr.parseProgram source.toList with
  | error m => exact .inl ⟨_, rfl, .inl rfl⟩
  | ok e =>
    cases hd : e.definition? with
    | none =>
      simp only [hd]
      exact .inl ⟨_, rfl, .inl trivial⟩
    | some d =>
      rcases hdefine : s.define d with ⟨f | o, s₁⟩
      · simp only [hd, hdefine]
        exact .inl ⟨f, rfl, .inr ⟨d, by rw [hdefine]⟩⟩
      · simp only [hd, hdefine]
        exact .inr ⟨e, d, o, s₁, rfl, hd, hdefine, rfl⟩

/-- A definition of a prelude that is loaded, and the rest of the prelude. -/
theorem loadFrom_cons {s s' : Session} {i : Nat} {source : String} {sources : List String} :
    s.loadFrom i (source :: sources) = (.ok (), s') ↔
      ∃ e d o s₁, Expr.parseProgram source.toList = .ok e ∧ e.definition? = some d ∧
        s.define d = (.ok o, s₁) ∧
        loadFrom { s₁ with prelude := s₁.prelude ++ [source] } (i + 1) sources = (.ok (), s') := by
  constructor
  · intro h
    obtain ⟨f, herror, -⟩ | ⟨e, d, o, s₁, hparse, hd, hdefine, hrest⟩ :=
      s.loadFrom_cases i source sources
    · rw [h] at herror
      cases herror
    · exact ⟨e, d, o, s₁, hparse, hd, hdefine, hrest ▸ h⟩
  · rintro ⟨e, d, o, s₁, hparse, hd, hdefine, hrest⟩
    rw [loadFrom, hparse]
    simp only [hd, hdefine]
    exact hrest

/-! ## Commands -/

/-- **The input is the command `:reset`.** -/
def IsReset (input : String) : Prop := (splitCommand (Text.trim input)).1 = ":reset"

instance (input : String) : Decidable (IsReset input) := inferInstanceAs (Decidable (_ = _))

theorem IsReset.isCommand {input : String} (h : IsReset input) : isCommand (Text.trim input) := by
  have hname : (Text.trim input).toList.takeWhile (!endsName ·) = ":reset".toList := by
    rw [← show (splitCommand (Text.trim input)).1 = ":reset" from h, splitCommand,
      String.toList_ofList]
  rw [Session.isCommand]
  cases hcs : (Text.trim input).toList with
  | nil => simp [hcs] at hname
  | cons c cs =>
    rw [hcs, List.takeWhile_cons] at hname
    split at hname
    · simp_all
    · simp at hname

/-- The outcome is not that of a definition, and the session is the same. -/
structure Keeps (s : Session) (r : Step Outcome) : Prop where
  outcome : ∀ d σ v, r.1 ≠ .ok (.defined d σ v)
  same : s.Same r.2

theorem evaluate_keeps (s : Session) (e : Expr) : s.Keeps (s.evaluate e) := by
  rw [evaluate]
  cases e.validate with
  | error m => exact ⟨nofun, rfl, rfl, rfl⟩
  | ok =>
    rcases s.context.infer s.types e with ⟨_ | t, context⟩
    · exact ⟨nofun, rfl, rfl, rfl⟩
    · cases Value.eval Value.programBound s.values e <;> exact ⟨nofun, rfl, rfl, rfl⟩

/-- A command that only asks runs no program. -/
structure Asks (s : Session) (r : Step Outcome) : Prop extends s.Keeps r where
  running : ∀ err, r.1 ≠ .error (.running err)

theorem typeCommand_asks (s : Session) (source : String) : s.Asks (s.typeCommand source) := by
  rw [typeCommand]
  split
  · exact ⟨⟨nofun, rfl, rfl, rfl⟩, nofun⟩
  · split <;> exact ⟨⟨nofun, rfl, rfl, rfl⟩, nofun⟩

/-- What `:reset` does to the session, and how it is answered. -/
theorem command_reset (s : Session) {input : String} (h : (splitCommand input).1 = ":reset") :
    s.command input = (s.reset.1.map fun _ => .told "Session reset", s.reset.2) := by
  simp only [command, h]
  rcases s.reset with ⟨_ | _, s'⟩ <;> rfl

theorem eval_reset (s : Session) {input : String} (h : IsReset input) :
    s.eval input = (s.reset.1.map fun _ => .told "Session reset", s.reset.2) := by
  simp only [eval, h.isCommand, if_true]
  exact s.command_reset h

theorem command_asks (s : Session) {input : String} (h : (splitCommand input).1 ≠ ":reset") :
    s.Asks (s.command input) := by
  simp only [command, h, if_false]
  split
  · exact s.typeCommand_asks _
  split
  · exact ⟨⟨nofun, rfl, rfl, rfl⟩, nofun⟩
  split
  · cases Expr.parseProgram (splitCommand input).2.toList <;>
      exact ⟨⟨nofun, rfl, rfl, rfl⟩, nofun⟩
  split
  · exact ⟨⟨nofun, rfl, rfl, rfl⟩, nofun⟩
  split <;> exact ⟨⟨nofun, rfl, rfl, rfl⟩, nofun⟩

/-- **What an input does**: it makes a definition, keeps the session, or resets it. -/
theorem eval_cases (s : Session) (input : String) :
    (∃ e d, Expr.parseProgram (Text.trim input).toList = .ok e ∧ e.definition? = some d ∧
      s.eval input = s.define d) ∨
    s.Keeps (s.eval input) ∨
      (∀ d σ v, (s.eval input).1 ≠ .ok (.defined d σ v)) ∧ (s.eval input).2 = s.reset.2 ∧
        IsReset input := by
  by_cases hreset : IsReset input
  · refine .inr (.inr ?_)
    rw [s.eval_reset hreset]
    refine ⟨fun d σ v => ?_, rfl, hreset⟩
    cases s.reset.1 <;> exact nofun
  · simp only [eval]
    split
    · exact .inr (.inl (s.command_asks hreset).toKeeps)
    · cases hparse : Expr.parseProgram (Text.trim input).toList with
      | error e => exact .inr (.inl ⟨nofun, rfl, rfl, rfl⟩)
      | ok e =>
        simp only [exec]
        cases hd : e.definition? with
        | some d => exact .inl ⟨e, d, rfl, hd, rfl⟩
        | none => exact .inr (.inl (s.evaluate_keeps e))

/-! ## What fails -/

/-- What fails in a prelude is told with the place of its definition. -/
theorem loadFrom_error {s : Session} {i : Nat} {sources : List String} {f : Failure}
    (h : (s.loadFrom i sources).1 = .error f) : ∃ j g, f = .within (.prelude j) g := by
  induction sources generalizing s i with
  | nil => cases h
  | cons source sources ih =>
    obtain ⟨g, herror, -⟩ | ⟨e, d, o, s₁, -, -, -, hrest⟩ := s.loadFrom_cases i source sources
    · exact ⟨i, g, Except.error.inj (h.symm.trans herror)⟩
    · exact ih (hrest ▸ h)

theorem define_running {s : Session} {d : Definition} {err : RuntimeError}
    (h : (s.define d).1 = .error (.running err)) :
    (∃ r, (s.context.define s.types (some d)).1 = .ok r) ∧
      Value.evalDefinition Value.programBound s.values d = .error err := by
  rw [define] at h
  generalize s.context.define s.types (some d) = r at h ⊢
  obtain ⟨_ | r, context⟩ := r
  · cases h
  · refine ⟨⟨r, rfl⟩, ?_⟩
    cases hvalue : Value.evalDefinition Value.programBound s.values d with
    | ok => simp [hvalue] at h
    | error e =>
      simp only [hvalue] at h
      cases h
      rfl

theorem evaluate_running {s : Session} {e : Expr} {err : RuntimeError}
    (h : (s.evaluate e).1 = .error (.running err)) :
    (∃ t, (s.context.infer s.types e).1 = .ok t) ∧
      Value.eval Value.programBound s.values e = .error err := by
  rw [evaluate] at h
  cases hvalid : e.validate with
  | error m => simp [hvalid] at h
  | ok =>
    simp only [hvalid] at h
    generalize s.context.infer s.types e = r at h ⊢
    obtain ⟨_ | t, context⟩ := r
    · cases h
    · refine ⟨⟨t, rfl⟩, ?_⟩
      cases hvalue : Value.eval Value.programBound s.values e with
      | ok => simp [hvalue] at h
      | error e =>
        simp only [hvalue] at h
        cases h
        rfl

/-- **An input fails in evaluation only where inference has accepted it.** -/
theorem eval_running {s : Session} {input : String} {err : RuntimeError}
    (h : (s.eval input).1 = .error (.running err)) :
    (∃ d r, (s.context.define s.types (some d)).1 = .ok r ∧
      Value.evalDefinition Value.programBound s.values d = .error err) ∨
    ∃ e t, (s.context.infer s.types e).1 = .ok t ∧
      Value.eval Value.programBound s.values e = .error err := by
  by_cases hreset : IsReset input
  · rw [s.eval_reset hreset] at h
    cases hload : s.reset.1 with
    | ok =>
      rw [hload] at h
      cases h
    | error f =>
      obtain ⟨j, g, rfl⟩ := loadFrom_error hload
      rw [hload] at h
      cases h
  · simp only [eval] at h
    split at h
    · exact absurd h ((s.command_asks hreset).running err)
    · cases hparse : Expr.parseProgram (Text.trim input).toList with
      | error e => simp [hparse] at h
      | ok e =>
        simp only [hparse, exec] at h
        cases hd : e.definition? with
        | some d =>
          simp only [hd] at h
          obtain ⟨⟨r, htype⟩, hvalue⟩ := define_running h
          exact .inl ⟨d, r, htype, hvalue⟩
        | none =>
          simp only [hd] at h
          obtain ⟨⟨t, htype⟩, hvalue⟩ := evaluate_running h
          exact .inr ⟨e, t, htype, hvalue⟩

end Session

end LetPoly
