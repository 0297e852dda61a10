import StockFlow.Proofs.Catalog
import StockFlow.Proofs.Resetting

/-!
# Answers

A request is obeyed or fails, and its response tells which: a failure has an error and leaves the engine
as it was, all else has none. A result is missing beside it only where a run gets to a time that is no
finite number, for which JSON has no text.
-/

namespace StockFlow
namespace Engine

variable {α : Type} [Scalar α] {engine next : Engine α} {request result : Value α} {command : Command α}

/-! ## What a request comes to -/

/-- What a response repeats of its request. -/
def identification : Value α → Value α
  | .list (id :: _) => id
  | _ => .null

/-- The command of a request, unless it is malformed or asks for what does not exist. -/
def command? (request : Value α) : Option (Command α) :=
  match request with
  | .list (_ :: word :: arguments) => (readCommand request word arguments).toOption
  | _ => none

/-- The result of a request with the engine behind it, unless it fails. -/
def obey? (engine : Engine α) (request : Value α) : Option (Value α × Engine α) :=
  (command? request).bind fun command => (engine.execute command).toOption

theorem handle_of_obeyed (obeyed : engine.obey? request = some (result, next)) :
    engine.handle request = (success (identification request) result, next) := by
  obtain ⟨command, read, executed⟩ := Option.bind_eq_some_iff.mp obeyed
  unfold command? at read
  split at read
  · have read := toOption_eq_some.mp read
    have executed := toOption_eq_some.mp executed
    simp [handle, read, Except.bind, executed, identification]
  · cases read

theorem handle_of_failed (failed : engine.obey? request = none) :
    ∃ message, engine.handle request = (failure (identification request) message, engine) := by
  unfold handle
  split
  · rename_i id word arguments
    cases read : readCommand (.list (id :: word :: arguments)) word arguments with
    | error fault => exact ⟨errorText fault, rfl⟩
    | ok command =>
      cases executed : engine.execute command with
      | error fault => exact ⟨errorText fault, by simp [Except.bind, executed, identification]⟩
      | ok answer => simp [obey?, command?, read, executed, Except.toOption] at failed
  · exact ⟨_, rfl⟩
  · rename_i many one
    refine ⟨noResult request, ?_⟩
    have anonymous : identification request = .null := by
      unfold identification
      split
      · rename_i id rest
        cases rest with
        | nil => exact absurd rfl (one id)
        | cons word arguments => exact absurd rfl (many id word arguments)
      · rfl
    rw [anonymous]

/-! ## Sessions -/

theorem serve_append (before after : List (Value α)) :
    serve (before ++ after) engine =
      ((serve before engine).1 ++ (serve after (serve before engine).2).1,
        (serve after (serve before engine).2).2) := by
  induction before generalizing engine with
  | nil => rfl
  | cons request rest ih => simp [serve, ih]

@[simp] theorem length_serve (requests : List (Value α)) :
    (serve requests engine).1.length = requests.length := by
  induction requests generalizing engine with
  | nil => rfl
  | cons request rest ih => simp [serve, ih]

theorem serve_at (before after : List (Value α)) :
    (serve (before ++ request :: after) engine).1[before.length]? =
      some ((serve before engine).2.handle request).1 := by
  simp [serve_append, serve]

theorem serve_concat (before : List (Value α)) :
    (serve (before ++ [request]) engine).2 = ((serve before engine).2.handle request).2 := by
  simp [serve_append, serve]

/-! ## Results -/

/-- The requests whose result is the time that a run gets to. -/
inductive AsksTime (engine : Engine α) (request : Value α) : Prop
  | runTo (time : α) (read : command? request = some (.runTo time))
  | runToEnd (read : command? request = some .runToEnd) (undesired : engine.desired? = none)

theorem ofNumber_eq_null {x : α} : Value.ofNumber x = .null ↔ ¬Scalar.isFinite x := by
  unfold Value.ofNumber
  split <;> simp_all

/-- A result is missing only where a time is no finite number. -/
theorem result_eq_null (obeyed : engine.obey? request = some (result, next)) :
    result = .null ↔ engine.AsksTime request ∧ ¬Scalar.isFinite next.simulation.time := by
  obtain ⟨command, read, executed⟩ := Option.bind_eq_some_iff.mp obeyed
  have executed := toOption_eq_some.mp executed
  have other : ∀ {result : Value α}, (∀ time, command ≠ .runTo time) →
      (command = .runToEnd → engine.desired? ≠ none) → result ≠ .null →
        (result = .null ↔ engine.AsksTime request ∧ ¬Scalar.isFinite next.simulation.time) := by
    intro result noRun noEnd told
    refine ⟨fun missing => absurd missing told, fun ⟨asks, _⟩ => ?_⟩
    cases asks with
    | runTo time again => exact absurd (Option.some.inj (read.symm.trans again)) (noRun time)
    | runToEnd again undesired =>
      exact absurd undesired (noEnd (Option.some.inj (read.symm.trans again)))
  cases command with
  | runTo time =>
    cases executed
    simp [ofNumber_eq_null, AsksTime.runTo time read]
  | runToEnd =>
    cases desired : engine.desired? with
    | none =>
      simp only [execute, desired] at executed
      cases executed
      simp [ofNumber_eq_null, AsksTime.runToEnd read desired]
    | some names =>
      simp only [execute, desired] at executed
      cases executed
      exact other (by simp) (by simp [desired]) (by simp [series, recordOf])
  | setValue name value =>
    obtain ⟨run, -, executed⟩ := bind_eq_ok.mp executed
    cases executed
    exact other (by simp) (by simp) (by simp [done])
  | reset | setDesired =>
    cases executed
    exact other (by simp) (by simp) (by simp [done])
  | getValues | getSeries =>
    cases executed
    exact other (by simp) (by simp) (by simp [values, series, recordOf])

/-- Each request of a session has the response `[id, [result, error]]`, with the error exactly if it
fails, and never with both. Neither is there exactly if a run gets to a time that is no finite number and
is to answer with it. -/
theorem answer_tells_failure (engine : Engine α) (before after : List (Value α)) (request : Value α) :
    ∃ result error,
      (serve (before ++ request :: after) engine).1[before.length]? =
        some (.list [identification request, .list [result, error]]) ∧
      (error ≠ .null ↔ (serve before engine).2.obey? request = none) ∧
      ¬(result ≠ .null ∧ error ≠ .null) ∧
      (result = .null ∧ error = .null ↔ (serve before engine).2.AsksTime request ∧
        ¬Scalar.isFinite (serve (before ++ [request]) engine).2.simulation.time) := by
  rw [serve_at, serve_concat]
  generalize (serve before engine).2 = reached
  cases obeyed : reached.obey? request with
  | some answer =>
    obtain ⟨result, next⟩ := answer
    rw [handle_of_obeyed obeyed]
    exact ⟨result, .null, rfl, by simp, by simp, by simp [result_eq_null obeyed]⟩
  | none =>
    obtain ⟨message, handled⟩ := handle_of_failed obeyed
    rw [handled]
    refine ⟨.null, .text message, rfl, by simp, by simp, by simp, fun ⟨asks, _⟩ => ?_⟩
    cases asks with
    | runTo time read => simp [obey?, read, execute, Except.toOption] at obeyed
    | runToEnd read => simp [obey?, read, execute, Except.toOption] at obeyed

/-- A run whose only step goes past the largest finite number. -/
def overflowing : Document.Project Float :=
  ⟨"", ⟨1e308, 1.5e308, 1e308, none⟩, [⟨"main", none, []⟩]⟩

/-- The end of such a run is answered with neither a result nor an error. -/
theorem answer_overflowing : ∃ project first, Project.compile overflowing = .ok project ∧
    Simulation.ofProject project = .ok first ∧
      (serve [.list [.integer 1, .text "run_to_end"]] (start first)).1 =
        [.list [.integer 1, .list [.null, .null]]] := by
  have check : ∃ project ∈ (Project.compile overflowing).toOption,
      ∃ first ∈ (Simulation.ofProject project).toOption,
        ¬Scalar.isFinite first.runToEnd.time := by
    rw [Project.compile_eq]
    decide +kernel
  obtain ⟨project, compiled, first, ready, infinite⟩ := check
  refine ⟨project, first, toOption_eq_some.mp compiled, toOption_eq_some.mp ready, ?_⟩
  show [success (.integer 1) (Value.ofNumber first.runToEnd.time)] = _
  rw [ofNumber_eq_null.mpr infinite, success]

end Engine
end StockFlow
