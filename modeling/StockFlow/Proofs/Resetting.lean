import StockFlow.Proofs.Catalog
import StockFlow.Proofs.Storing
import StockFlow.Session.Engine

/-!
# Resetting

A reset forgets everything. No call changes the plan of a run or the length of its rows, and a reset
makes all else from these: the clock's counts, the block of cells, and the row that is written aside. So
engines of one project cannot be told apart behind a reset, unless by the series that they answer with.
-/

namespace StockFlow

variable {α : Type} [Scalar α]

theorem bind_eq_some {β γ : Type} {x : Option β} {f : β → Option γ} {c : γ} :
    (x >>= f) = some c ↔ ∃ b, x = some b ∧ f b = some c := Option.bind_eq_some_iff

/-! ## Storage -/

namespace Row

omit [Scalar α] in
theorem size_of_put? {row next : Row α} {slot : Nat} {x : α} (put : row.put? slot x = some next) :
    next.size = row.size := by
  unfold put? at put
  split at put
  · cases put
    rw [Array.size_setIfInBounds]
  · cases put

omit [Scalar α] in
theorem size_of_copy? {target source next : Row α} (copied : target.copy? source = some next) :
    next.size = target.size := by
  unfold copy? at copied
  split at copied
  · rename_i same
    cases copied
    exact same.symm
  · cases copied

theorem size_of_advance? {dt : α} {row next last : Row α} {program : List (Assignment α)}
    (advanced : row.advance? dt next program = some last) : last.size = next.size := by
  unfold advance? at advanced
  induction program generalizing next with
  | nil =>
    cases advanced
    rfl
  | cons a rest ih =>
    obtain ⟨between, stepped, others⟩ := bind_eq_some.mp advanced
    obtain ⟨value, -, put⟩ := bind_eq_some.mp stepped
    exact (ih others).trans (size_of_put? put)

end Row

namespace Storage

variable {s t : Storage α}

/-- Whether storage has the same plan and the same length of rows as before. -/
structure Keeps (s t : Storage α) : Prop where
  plan : t.plan = s.plan
  next : t.next.size = s.next.size

omit [Scalar α] in
theorem Keeps.refl (s : Storage α) : Keeps s s := ⟨rfl, rfl⟩

omit [Scalar α] in
theorem Keeps.trans {u : Storage α} (one : Keeps s t) (two : Keeps t u) : Keeps s u :=
  ⟨two.plan.trans one.plan, two.next.trans one.next⟩

omit [Scalar α] in
theorem keeps_of_writeRow? {n : Nat} {row : Row α} (done : s.writeRow? n row = some t) : Keeps s t := by
  obtain ⟨first, -, done⟩ := bind_eq_some.mp done
  obtain ⟨last, -, done⟩ := bind_eq_some.mp done
  split at done
  · cases done
    exact ⟨rfl, rfl⟩
  · cases done

omit [Scalar α] in
theorem keeps_of_writeCell? {n slot : Nat} {x : α} (done : s.writeCell? n slot x = some t) :
    Keeps s t := by
  obtain ⟨first, -, done⟩ := bind_eq_some.mp done
  split at done
  · cases done
    exact ⟨rfl, rfl⟩
  · cases done

theorem keeps_of_reset? (done : s.reset? = some t) : Keeps s t := by
  obtain ⟨length, -, done⟩ := bind_eq_some.mp done
  obtain ⟨blank, -, done⟩ := bind_eq_some.mp done
  obtain ⟨timed, -, done⟩ := bind_eq_some.mp done
  obtain ⟨row, -, done⟩ := bind_eq_some.mp done
  have kept := keeps_of_writeRow? done
  exact ⟨kept.plan, kept.next.trans (Array.size_map ..)⟩

theorem keeps_of_settle? (done : s.settle? = some t) : Keeps s t := by
  obtain ⟨n, -, done⟩ := bind_eq_some.mp done
  obtain ⟨row, -, done⟩ := bind_eq_some.mp done
  obtain ⟨settled, -, done⟩ := bind_eq_some.mp done
  exact keeps_of_writeRow? done

theorem keeps_of_advance? (done : s.advance? = some t) : Keeps s t := by
  obtain ⟨time, -, done⟩ := bind_eq_some.mp done
  obtain ⟨settled, settle, done⟩ := bind_eq_some.mp done
  obtain ⟨n, -, done⟩ := bind_eq_some.mp done
  obtain ⟨row, -, done⟩ := bind_eq_some.mp done
  obtain ⟨copy, copied, done⟩ := bind_eq_some.mp done
  obtain ⟨next, advanced, done⟩ := bind_eq_some.mp done
  obtain ⟨timed, put, done⟩ := bind_eq_some.mp done
  obtain ⟨last, -, done⟩ := bind_eq_some.mp done
  have kept := keeps_of_writeRow? done
  have sized : timed.size = settled.next.size :=
    (Row.size_of_put? put).trans ((Row.size_of_advance? advanced).trans (Row.size_of_copy? copied))
  exact (keeps_of_settle? settle).trans ⟨kept.plan, kept.next.trans sized⟩

theorem keeps_of_runUntil? {past : α → Bool} (done : s.runUntil? past = some t) : Keeps s t := by
  have many : ∀ steps (s t : Storage α), s.advanceUntil? past steps = some t → Keeps s t := by
    intro steps
    induction steps with
    | zero =>
      intro s t done
      cases done
      exact .refl s
    | succ steps ih =>
      intro s t done
      obtain ⟨time, -, done⟩ := bind_eq_some.mp done
      split at done
      · cases done
        exact .refl s
      · obtain ⟨next, advanced, done⟩ := bind_eq_some.mp done
        exact (keeps_of_advance? advanced).trans (ih next t done)
  obtain ⟨steps, -, done⟩ := bind_eq_some.mp done
  obtain ⟨last, run, done⟩ := bind_eq_some.mp done
  exact (many _ _ _ run).trans (keeps_of_settle? done)

theorem keeps_of_call? {call : Call α} (done : s.call? call = some t) : Keeps s t := by
  have ends : ∀ {past : α → Bool}, (do
      let s ← s.runUntil? past
      let time ← s.time?
      return (time, s)).map Prod.snd = some t → Keeps s t := by
    intro past done
    obtain ⟨answer, ran, rfl⟩ := Option.map_eq_some_iff.mp done
    obtain ⟨last, run, ran⟩ := bind_eq_some.mp ran
    obtain ⟨time, -, ran⟩ := bind_eq_some.mp ran
    cases ran
    exact keeps_of_runUntil? run
  cases call with
  | reset => exact keeps_of_reset? done
  | runTo stop => exact ends done
  | runToEnd => exact ends done
  | set name value =>
    obtain ⟨result, set, done⟩ := bind_eq_some.mp done
    cases done
    cases result with
    | error fault => exact .refl s
    | ok next =>
      show Keeps s next
      unfold set? at set
      split at set
      · cases set
      · split at set
        · cases set
        · obtain ⟨n, -, set⟩ := bind_eq_some.mp set
          obtain ⟨last, written, set⟩ := bind_eq_some.mp set
          cases set
          exact keeps_of_writeCell? written

theorem keeps_of_after? {calls : List (Call α)} (done : s.after? calls = some t) : Keeps s t := by
  induction calls generalizing s with
  | nil =>
    cases done
    exact .refl _
  | cons call rest ih =>
    obtain ⟨next, called, others⟩ := bind_eq_some.mp done
    exact (keeps_of_call? called).trans (ih others)

/-- What a reset makes depends on the plan and the length of rows alone. -/
theorem Keeps.reset?_eq (kept : Keeps s t) : t.reset? = s.reset? := by
  have cleared : ∀ next : Row α, next.map (fun _ => Scalar.zero) =
      Array.replicate next.size (Scalar.zero : α) := fun next => Array.map_const' ..
  obtain ⟨plan, next⟩ := kept
  unfold reset?
  rw [cleared, cleared, plan, next]

theorem reset?_of_after? {plan : Plan α} {origin later : Storage α} (ready : start? plan = some origin)
    {calls : List (Call α)} (done : origin.after? calls = some later) : later.reset? = some origin := by
  have kept := (keeps_of_reset? ready).trans (keeps_of_after? done)
  exact kept.reset?_eq.trans ready

end Storage

/-! ## Engines -/

namespace Engine

variable {engine other next : Engine α} {command : Command α} {request answer : Value α}

/-- Answers requests one after the other. -/
def serve : List (Value α) → Engine α → List (Value α) × Engine α
  | [], engine => ([], engine)
  | request :: rest, engine =>
    let (answer, engine) := engine.handle request
    let (answers, engine) := serve rest engine
    (answer :: answers, engine)

theorem plan_of_execute (executed : engine.execute command = .ok (answer, next)) :
    next.simulation.plan = engine.simulation.plan := by
  cases command with
  | reset | getValues | getSeries | setDesired =>
    cases executed
    rfl
  | runTo time =>
    cases executed
    exact (Simulation.reaches_runUntil _).plan_eq
  | runToEnd =>
    cases executed
    exact (Simulation.reaches_runUntil _).plan_eq
  | setValue name value =>
    obtain ⟨run, set, executed⟩ := bind_eq_ok.mp executed
    cases executed
    have called : engine.simulation.call (.set name value) = run :=
      congrArg (·.toOption.getD engine.simulation) set
    have kept : (engine.simulation.after [.set name value]).plan = engine.simulation.plan :=
      Simulation.plan_after
    exact called ▸ kept

/-- No request changes the plan. -/
theorem plan_handle : (engine.handle request).2.simulation.plan = engine.simulation.plan := by
  unfold handle
  split
  · split
    · rename_i executed
      unfold Except.bind at executed
      split at executed
      · cases executed
      · exact plan_of_execute executed
    · rfl
  · rfl
  · rfl

theorem plan_serve {requests : List (Value α)} :
    (serve requests engine).2.simulation.plan = engine.simulation.plan := by
  induction requests generalizing engine with
  | nil => rfl
  | cons request rest ih =>
    show (serve rest (engine.handle request).2).2.simulation.plan = _
    rw [ih, plan_handle]

/-- A reset leaves nothing but the plan and the desired series. -/
theorem handle_reset (id : Value α) (arguments : List (Value α)) :
    engine.handle (.list (id :: .text "reset" :: arguments)) =
      (success id done, ⟨.start engine.simulation.plan, engine.desired?⟩) := rfl

theorem serve_reset (plan : engine.simulation.plan = other.simulation.plan)
    (desired : engine.desired? = other.desired?) (id : Value α) (arguments requests : List (Value α)) :
    serve (.list (id :: .text "reset" :: arguments) :: requests) engine =
      serve (.list (id :: .text "reset" :: arguments) :: requests) other := by
  simp only [serve, handle_reset, plan, desired]

/-- A reset takes a run back to its start, and so it does with storage, cell by cell, whatever calls
went before; where sizes are machine words no call fails to find its places. Engines of one project
that answer with the same series, whatever they served, have the same answers from a reset on. -/
theorem reset_forgets {document : Document.Project Float} {project : Project Float}
    {first : Simulation Float} (compiled : Project.compile document = .ok project)
    (ready : Simulation.ofProject project = .ok first) :
    (∀ calls, (first.after calls).reset = first) ∧
    (∀ origin, Storage.start? first.plan = some origin → ∀ calls later,
      origin.after? calls = some later → later.reset? = some origin) ∧
    (first.plan.FitsMemory → ∃ origin, Storage.start? first.plan = some origin ∧ ∀ calls,
      ∃ later, origin.after? calls = some later ∧ later.reset? = some origin) ∧
    ∀ before before',
      (serve before (start first)).2.desired? = (serve before' (start first)).2.desired? →
        ∀ id arguments requests,
          serve (.list (id :: .text "reset" :: arguments) :: requests) (serve before (start first)).2 =
            serve (.list (id :: .text "reset" :: arguments) :: requests)
              (serve before' (start first)).2 := by
  obtain ⟨plan, planned, rfl⟩ := Simulation.ofProject_eq_ok.mp ready
  refine ⟨fun calls => ?_, fun origin ready calls later => Storage.reset?_of_after? ready,
    fun fits => ?_, fun before before' desired => ?_⟩
  · show Simulation.start ((Simulation.start plan).after calls).plan = .start plan
    rw [Simulation.plan_after]
    rfl
  · have bounded := Plan.isBounded_of_ofProject compiled planned
    obtain ⟨origin, ready, represents⟩ := Storage.represents_start fits bounded
    have same : origin.plan = plan := represents.plan
    refine ⟨origin, ready, fun calls => ?_⟩
    obtain ⟨later, done, -⟩ := represents.after (same ▸ fits) (same ▸ bounded) calls
    exact ⟨later, done, Storage.reset?_of_after? ready done⟩
  · exact serve_reset (plan_serve.trans plan_serve.symm) desired

theorem reset_forgets_nested : ∃ project first, Project.compile Plan.nested = .ok project ∧
    Simulation.ofProject project = .ok first ∧
      (first.after [.set "a" 2, .runTo 1]).reset = first ∧
      ∃ origin later, Storage.start? first.plan = some origin ∧
        origin.after? [.set "a" 2, .runTo 1] = some later ∧ later.reset? = some origin := by
  have check : ∃ project ∈ (Project.compile Plan.nested).toOption,
      ∃ first ∈ (Simulation.ofProject project).toOption,
        first.plan.size * (first.plan.clock.savedRows + 1) < UInt64.size ∧
          first.plan.clock.savedRows * first.plan.clock.saveEvery < UInt64.size := by
    rw [Project.compile_eq]
    decide +kernel
  obtain ⟨project, compiled, first, ready, cells, steps⟩ := check
  have compiled := toOption_eq_some.mp compiled
  have ready := toOption_eq_some.mp ready
  obtain ⟨anew, -, stored, -⟩ := reset_forgets compiled ready
  obtain ⟨origin, started, calls⟩ := stored ⟨cells, steps⟩
  obtain ⟨later, done, again⟩ := calls [.set "a" 2, .runTo 1]
  exact ⟨project, first, compiled, ready, anew _, origin, later, started, done, again⟩

end Engine
end StockFlow
