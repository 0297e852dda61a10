import StockFlow.Proofs.Answers

/-!
# Observers and failures

A session from which requests are left out, beside the session with all of them. What only asks, and
what fails, is not missed by the rest; what chooses the series is missed by the ends of runs alone.
-/

namespace StockFlow

/-! ## Places left out -/

/-- The elements of a list but those at some places. -/
def leaveOut {β : Type} (left : ℕ → Bool) : List β → List β
  | [] => []
  | x :: rest =>
    let others := leaveOut (fun place => left (place + 1)) rest
    if left 0 then others else x :: others

example : leaveOut (· == 1) ["a", "b", "c"] = ["a", "c"] := by decide

/-! ## Words -/

namespace Command

variable {α : Type} [Scalar α] {arguments : List (Value α)} {command : Command α}

/-- The word that a host has for a command. -/
def word : Command α → String
  | reset => "reset"
  | setValue .. => "set_val"
  | getValues _ => "get_val"
  | getSeries _ => "get_series"
  | runTo _ => "run_to"
  | runToEnd => "run_to_end"
  | setDesired _ => "set_desired_series"

theorem word_of_readSetValue? (read : readSetValue? arguments = some command) :
    command.word = "set_val" := by
  unfold readSetValue? at read
  split at read
  · obtain ⟨name, -, read⟩ := bind_eq_some.mp read
    obtain ⟨value, -, read⟩ := bind_eq_some.mp read
    cases read
    rfl
  · cases read

theorem word_of_readRunTo? (read : readRunTo? arguments = some command) : command.word = "run_to" := by
  unfold readRunTo? at read
  split at read
  · obtain ⟨time, -, rfl⟩ := Option.map_eq_some_iff.mp read
    rfl
  · cases read

omit [Scalar α] in
theorem word_of_readSetDesired? (read : readSetDesired? arguments = some command) :
    command.word = "set_desired_series" := by
  unfold readSetDesired? at read
  split at read
  · obtain ⟨names, -, rfl⟩ := Option.map_eq_some_iff.mp read
    rfl
  · obtain ⟨names, -, rfl⟩ := Option.map_eq_some_iff.mp read
    rfl
  · cases read

theorem word_of_parse {word : String} (parsed : parse word arguments = .ok (some command)) : command.word = word := by
  unfold parse at parsed
  split at parsed
  case h_8 => cases parsed
  all_goals have read := Except.ok.inj parsed
  case h_1 | h_6 =>
    cases read
    rfl
  case h_2 => exact word_of_readSetValue? read
  case h_3 | h_4 =>
    obtain ⟨names, -, rfl⟩ := Option.map_eq_some_iff.mp read
    rfl
  case h_5 => exact word_of_readRunTo? read
  case h_7 => exact word_of_readSetDesired? read

end Command

namespace Engine

variable {α : Type} [Scalar α] {engine other next : Engine α} {request result : Value α}
variable {command : Command α}

/-- Whether a request has a command word, whatever its arguments are. -/
def Calls (word : String) (request : Value α) : Prop :=
  ∃ id arguments, request = .list (id :: .text word :: arguments)

/-- The requests that only look at the engine, or that fail, as their responses show. -/
inductive IsTraceless : Value α → Value α → Prop
  | values {request response : Value α} : Calls "get_val" request → IsTraceless request response
  | series {request response : Value α} : Calls "get_series" request → IsTraceless request response
  | rejected {request response : Value α} : command? request = none → IsTraceless request response
  | failed {request id : Value α} {message : String} : IsTraceless request (failure id message)

/-! ## One request -/

theorem parse_of_readCommand {word : Value α} {arguments : List (Value α)}
    (read : readCommand request word arguments = .ok command) :
    ∃ called, word = .text called ∧ Command.parse called arguments = .ok (some command) := by
  unfold readCommand at read
  split at read
  · rename_i called
    obtain ⟨found?, parsed, kept⟩ := bind_eq_ok.mp read
    cases found? with
    | none => cases kept
    | some found =>
      cases kept
      exact ⟨called, rfl, parsed⟩
  · cases read

/-- A request calls for what is read from it. -/
theorem calls_of_command? (read : command? request = some command) : Calls command.word request := by
  unfold command? at read
  split at read
  · rename_i id word arguments
    obtain ⟨called, rfl, parsed⟩ := parse_of_readCommand (toOption_eq_some.mp read)
    exact ⟨id, arguments, by rw [Command.word_of_parse parsed]⟩
  · cases read

omit [Scalar α] in
theorem Calls.word_eq {word word' : String} (calls : Calls word request) (again : Calls word' request) :
    word = word' := by
  obtain ⟨id, arguments, rfl⟩ := calls
  obtain ⟨id', arguments', same⟩ := again
  simp_all

theorem execute_of_looks (looks : command.word = "get_val" ∨ command.word = "get_series")
    (executed : engine.execute command = .ok (result, next)) : next = engine := by
  cases command with
  | getValues | getSeries =>
    cases executed
    rfl
  | _ => simp [Command.word] at looks

/-- A request that only looks, or fails, leaves the engine as it was. -/
theorem handle_of_isTraceless (traceless : IsTraceless request (engine.handle request).1) :
    (engine.handle request).2 = engine := by
  cases obeyed : engine.obey? request with
  | none =>
    obtain ⟨message, handled⟩ := handle_of_failed obeyed
    rw [handled]
  | some answer =>
    obtain ⟨result, next⟩ := answer
    obtain ⟨command, read, executed⟩ := Option.bind_eq_some_iff.mp obeyed
    have executed := toOption_eq_some.mp executed
    have called := calls_of_command? read
    rw [handle_of_obeyed obeyed] at traceless ⊢
    generalize answered : success (identification request) result = response at traceless
    cases traceless with
    | values calls => exact execute_of_looks (.inl (called.word_eq calls)) executed
    | series calls => exact execute_of_looks (.inr (called.word_eq calls)) executed
    | rejected none => cases read.symm.trans none
    | failed => simp [success] at answered

theorem simulation_of_chooses (chooses : Calls "set_desired_series" request) :
    (engine.handle request).2.simulation = engine.simulation := by
  cases obeyed : engine.obey? request with
  | none =>
    obtain ⟨message, handled⟩ := handle_of_failed obeyed
    rw [handled]
  | some answer =>
    obtain ⟨result, next⟩ := answer
    obtain ⟨command, read, executed⟩ := Option.bind_eq_some_iff.mp obeyed
    have word := (calls_of_command? read).word_eq chooses
    rw [handle_of_obeyed obeyed]
    cases command with
    | setDesired =>
      cases toOption_eq_some.mp executed
      rfl
    | _ => simp [Command.word] at word

/-- Which series are wanted is seen at the end of a run alone. -/
theorem handle_of_simulation (same : engine.simulation = other.simulation) (request : Value α) :
    (engine.handle request).2.simulation = (other.handle request).2.simulation ∧
      (Calls "run_to_end" request ∨ (engine.handle request).1 = (other.handle request).1) := by
  match request with
  | .list (id :: word :: arguments) =>
    cases read : readCommand (.list (id :: word :: arguments)) word arguments with
    | error fault => simp [handle, read, Except.bind, same]
    | ok command =>
      cases command with
      | runToEnd =>
        obtain ⟨called, rfl, parsed⟩ := parse_of_readCommand read
        have calls : called = "run_to_end" := (Command.word_of_parse parsed).symm
        exact ⟨by simp [handle, read, Except.bind, execute, same], .inl ⟨id, arguments, by rw [calls]⟩⟩
      | setValue name value =>
        cases set : other.simulation.set name value <;>
          simp [handle, read, Except.bind, execute, bind, pure, Except.pure, same, set]
      | _ => simp [handle, read, Except.bind, execute, values, series, same]
  | .list [] | .list [_] | .null | .boolean _ | .integer _ | .real _ | .text _ | .record _ =>
    simp [handle, same]

/-! ## Sessions -/

/-- What is left out leaves no trace in the rest, if each request at its own place leaves none. -/
theorem serve_leaveOut (left : ℕ → Bool) (requests : List (Value α)) (engine : Engine α)
    (traceless : ∀ place request response, left place → requests[place]? = some request →
      (serve requests engine).1[place]? = some response → IsTraceless request response) :
    serve (leaveOut left requests) engine =
      (leaveOut left (serve requests engine).1, (serve requests engine).2) := by
  induction requests generalizing left engine with
  | nil => rfl
  | cons request rest ih =>
    have others := ih (fun place => left (place + 1)) (engine.handle request).2
      fun place => traceless (place + 1)
    by_cases gone : left 0
    · have kept := handle_of_isTraceless (traceless 0 request _ gone rfl rfl)
      rw [kept] at others
      simp [leaveOut, gone, serve, kept, others]
    · simp [leaveOut, gone, serve, others]

/-- Engines with one run answer alike, but at the end of runs, also where one of them serves some requests
more that choose its series. -/
theorem serve_leaveOut_desired (left : ℕ → Bool) (requests : List (Value α)) (engine other : Engine α)
    (same : engine.simulation = other.simulation)
    (choosing : ∀ place request, left place → requests[place]? = some request →
      Calls "set_desired_series" request) :
    (serve (leaveOut left requests) other).2.simulation = (serve requests engine).2.simulation ∧
      List.Forall₂ (fun (exchange : Value α × Value α) response =>
          Calls "run_to_end" exchange.1 ∨ exchange.2 = response)
        (leaveOut left (requests.zip (serve requests engine).1))
        (serve (leaveOut left requests) other).1 := by
  induction requests generalizing left engine other with
  | nil => exact ⟨same.symm, .nil⟩
  | cons request rest ih =>
    by_cases gone : left 0
    · have kept : (engine.handle request).2.simulation = engine.simulation :=
        simulation_of_chooses (choosing 0 request gone rfl)
      have others := ih (fun place => left (place + 1)) (engine.handle request).2 other
        (kept.trans same) fun place => choosing (place + 1)
      simpa [leaveOut, gone, serve] using others
    · obtain ⟨later, alike⟩ := handle_of_simulation same request
      have others := ih (fun place => left (place + 1)) (engine.handle request).2
        (other.handle request).2 later fun place => choosing (place + 1)
      simp [leaveOut, gone, serve, alike, others]

/-- Whatever requests are left out of a session that only look or fail, the others have the responses
that they have with them, and the engine is the same in the end; whatever requests are left out that
choose the series, only the responses to `run_to_end` can differ. -/
theorem session_leaveOut (engine : Engine α) (requests : List (Value α)) (left : ℕ → Bool) :
    ((∀ place request response, left place → requests[place]? = some request →
        (serve requests engine).1[place]? = some response → IsTraceless request response) →
      serve (leaveOut left requests) engine =
        (leaveOut left (serve requests engine).1, (serve requests engine).2)) ∧
    ((∀ place request, left place → requests[place]? = some request →
        Calls "set_desired_series" request) →
      (serve (leaveOut left requests) engine).2.simulation = (serve requests engine).2.simulation ∧
        List.Forall₂ (fun (exchange : Value α × Value α) response =>
            Calls "run_to_end" exchange.1 ∨ exchange.2 = response)
          (leaveOut left (requests.zip (serve requests engine).1))
          (serve (leaveOut left requests) engine).1) :=
  ⟨serve_leaveOut left requests engine, serve_leaveOut_desired left requests engine engine rfl⟩

theorem session_leaveOut_nested : ∃ project plan, Project.compile Plan.nested = .ok project ∧
    Plan.ofProject project = .ok plan ∧
      let engine : Engine Float := start (.start plan)
      let choose := .list [.integer 1, .text "set_desired_series", .text "b"]
      let look := .list [.integer 2, .text "get_val", .text "a"]
      let run := .list [.integer 3, .text "run_to_end"]
      (∃ first second third, (serve [choose, look, run] engine).1 = [first, second, third] ∧
        (serve [choose, run] engine).1 = [first, third]) ∧
      (serve [look, run] engine).2.simulation = (serve [choose, look, run] engine).2.simulation := by
  obtain ⟨project, plan, compiled, planned, -⟩ := Plan.nested_runs
  refine ⟨project, plan, compiled, planned, ?_⟩
  intro engine choose look run
  obtain ⟨looking, -⟩ := session_leaveOut engine [choose, look, run] (· == 1)
  obtain ⟨-, choosing⟩ := session_leaveOut engine [choose, look, run] (· == 0)
  have looked := looking fun place request response gone asked _ => by
    cases eq_of_beq gone
    cases asked
    exact .values ⟨_, _, rfl⟩
  have chosen := choosing fun place request gone asked => by
    cases eq_of_beq gone
    cases asked
    exact ⟨_, _, rfl⟩
  exact ⟨⟨_, _, _, rfl, congrArg Prod.fst looked⟩, chosen.1⟩

end Engine
end StockFlow
