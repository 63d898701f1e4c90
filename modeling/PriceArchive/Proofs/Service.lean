import PriceArchive.Proofs.Log.Filter
import PriceArchive.Service

namespace PriceArchive

namespace Service

/-- A line that says what is done. -/
def Tells (line : LogLine) : Prop := ∃ part message, line = ⟨.info, Part.target part, message⟩

/-- The line that says why the service ends. -/
def lastWords (message : String) : LogLine := ⟨.error, Part.target .main, message⟩

section Parts

variable {α β : Type} {part : Startup α} {f : α → Startup β} {a : α} {b : β} {message : String}

/-- A part goes on with an answer when it has said what it does. -/
def GoesOn (part : Startup α) (a : α) : Prop :=
  ∃ said, (∀ line ∈ said, Tells line) ∧ ∀ lines, part lines = (.ok a, lines ++ said)

/-- A part ends the service; before its last line it has said what it does. -/
def Ends (part : Startup α) (message : String) : Prop :=
  ∃ said, (∀ line ∈ said, Tells line) ∧
    ∀ lines, part lines = (.error (), lines ++ (said ++ [lastWords message]))

theorem goesOn_pure (a : α) : GoesOn (pure a) a :=
  ⟨[], List.forall_mem_nil _, fun lines => by rw [List.append_nil]; rfl⟩

theorem goesOn_info (part : Part) (message : String) : GoesOn (info part message) () :=
  ⟨[_], List.forall_mem_singleton.mpr ⟨part, message, rfl⟩, fun _ => rfl⟩

theorem ends_abort (message : String) : Ends (abort message : Startup α) message :=
  ⟨[], List.forall_mem_nil _, fun _ => rfl⟩

theorem startup_bind_ok {lines said : List LogLine} (h : part lines = (.ok a, said)) :
    (part >>= f) lines = f a said := by
  change ExceptT.bindCont f (part lines).1 (part lines).2 = _
  rw [h]
  rfl

theorem startup_bind_error {lines said : List LogLine} (h : part lines = (.error (), said)) :
    (part >>= f) lines = (.error (), said) := by
  change ExceptT.bindCont f (part lines).1 (part lines).2 = _
  rw [h]
  rfl

theorem GoesOn.bind (h : GoesOn part a) (hf : GoesOn (f a) b) : GoesOn (part >>= f) b := by
  obtain ⟨said, hsaid, hrun⟩ := h
  obtain ⟨more, hmore, hnext⟩ := hf
  refine ⟨said ++ more, List.forall_mem_append.mpr ⟨hsaid, hmore⟩, fun lines => ?_⟩
  rw [startup_bind_ok (hrun lines), hnext, List.append_assoc]

theorem GoesOn.bind_ends (h : GoesOn part a) (hf : Ends (f a) message) : Ends (part >>= f) message := by
  obtain ⟨said, hsaid, hrun⟩ := h
  obtain ⟨more, hmore, hnext⟩ := hf
  refine ⟨said ++ more, List.forall_mem_append.mpr ⟨hsaid, hmore⟩, fun lines => ?_⟩
  rw [startup_bind_ok (hrun lines), hnext, List.append_assoc, List.append_assoc]

theorem Ends.bind (h : Ends part message) : Ends (part >>= f) message := by
  obtain ⟨said, hsaid, hrun⟩ := h
  exact ⟨said, hsaid, fun lines => startup_bind_error (hrun lines)⟩

end Parts

section Startup

variable {env : Environment} {server : Server} {settings : Settings} {reason message : String}

theorem readSettings_goesOn (h : Settings.read env = .ok settings) : GoesOn (readSettings env) settings := by
  rw [readSettings, h]
  exact goesOn_pure settings

theorem readSettings_ends {e : SettingsError} (h : Settings.read env = .error e) :
    Ends (readSettings env) ("❌ Invalid configuration: " ++ e.message) := by
  rw [readSettings, h]
  exact ends_abort _

theorem connect_goesOn (settings : StoreSettings) (hpool : server.refusal = none)
    (hconnection : server.asked.refusal = none) : GoesOn (connect settings server) server.asked.asked := by
  unfold connect
  simp only [hpool, hconnection]
  exact (goesOn_info _ _).bind ((goesOn_info _ _).bind ((goesOn_info _ _).bind ((goesOn_info _ _).bind
    (goesOn_pure _))))

theorem connect_ends_at_pool (settings : StoreSettings) (hpool : server.refusal = some reason) :
    Ends (connect settings server)
      ("❌ Failed to establish database connection: " ++ (Error.poolUnavailable reason).message) := by
  unfold connect
  simp only [hpool]
  exact (goesOn_info _ _).bind_ends ((goesOn_info _ _).bind_ends (ends_abort _).bind)

theorem connect_ends_at_connection (settings : StoreSettings) (hpool : server.refusal = none)
    (hconnection : server.asked.refusal = some reason) :
    Ends (connect settings server)
      ("❌ Failed to establish database connection: " ++ (Error.connectionFailed reason).message) := by
  unfold connect
  simp only [hpool, hconnection]
  exact (goesOn_info _ _).bind_ends ((goesOn_info _ _).bind_ends ((goesOn_info _ _).bind_ends
    (ends_abort _).bind))

theorem migrate_goesOn (applied : Nat) (h : server.refusal = none) : GoesOn (migrate server applied) () := by
  unfold migrate
  simp only [h]
  exact (goesOn_info _ _).bind (goesOn_info _ _)

theorem migrate_ends (applied : Nat) (h : server.refusal = some reason) :
    Ends (migrate server applied)
      ("❌ Failed to run migrations: " ++ (Error.poolUnavailable reason).message) := by
  unfold migrate
  simp only [h]
  exact (ends_abort _).bind

theorem schedule_goesOn {settings : CleanupSettings} {s : Schedule}
    (h : Schedule.read? settings.schedule = some s) : GoesOn (schedule settings) () := by
  have hregister : Cleanup.register settings.schedule = .ok s := by rw [Cleanup.register, h]
  unfold schedule
  simp only [hregister]
  exact (goesOn_info _ _).bind ((goesOn_info _ _).bind ((goesOn_info _ _).bind (goesOn_info _ _)))

theorem schedule_ends {settings : CleanupSettings} (h : Schedule.read? settings.schedule = none) :
    Ends (schedule settings) ("❌ Failed to register delisting cleanup job: " ++
      (JobError.schedule .unreadable).message) := by
  have hregister : Cleanup.register settings.schedule = .error (.schedule .unreadable) := by
    rw [Cleanup.register, h]
  unfold schedule
  simp only [hregister]
  exact (goesOn_info _ _).bind_ends (ends_abort _).bind

/-- What the service needs of its settings and of the server before it puts the cleanup on its schedule. -/
structure Connected (env : Environment) (server : Server) (settings : Settings) : Prop where
  settings : Settings.read env = .ok settings
  pool : server.refusal = none
  connection : server.asked.refusal = none
  migrations : server.asked.asked.refusal = none

/-- What brings the service to where it waits. -/
def Ready (env : Environment) (server : Server) : Prop :=
  ∃ settings, Connected env server settings ∧ ∃ s, Schedule.read? settings.cleanup.schedule = some s

/-- What ends the service, with its last words. -/
inductive Failure (env : Environment) (server : Server) : String → Prop where
  | settings {e : SettingsError} (h : Settings.read env = .error e) :
    Failure env server ("❌ Invalid configuration: " ++ e.message)
  | pool {settings : Settings} {reason : String} (hsettings : Settings.read env = .ok settings)
    (h : server.refusal = some reason) :
    Failure env server
      ("❌ Failed to establish database connection: " ++ (Error.poolUnavailable reason).message)
  | connection {settings : Settings} {reason : String} (hsettings : Settings.read env = .ok settings)
    (hpool : server.refusal = none) (h : server.asked.refusal = some reason) :
    Failure env server
      ("❌ Failed to establish database connection: " ++ (Error.connectionFailed reason).message)
  | migrations {settings : Settings} {reason : String} (hsettings : Settings.read env = .ok settings)
    (hpool : server.refusal = none) (hconnection : server.asked.refusal = none)
    (h : server.asked.asked.refusal = some reason) :
    Failure env server ("❌ Failed to run migrations: " ++ (Error.poolUnavailable reason).message)
  | schedule {settings : Settings} (hconnected : Connected env server settings)
    (h : Schedule.read? settings.cleanup.schedule = none) :
    Failure env server ("❌ Failed to register delisting cleanup job: " ++
      (JobError.schedule .unreadable).message)

theorem ready_or_failure (env : Environment) (server : Server) :
    Ready env server ∨ ∃ message, Failure env server message := by
  cases hsettings : Settings.read env with
  | error e => exact .inr ⟨_, .settings hsettings⟩
  | ok settings =>
    cases hpool : server.refusal with
    | some reason => exact .inr ⟨_, .pool hsettings hpool⟩
    | none =>
      cases hconnection : server.asked.refusal with
      | some reason => exact .inr ⟨_, .connection hsettings hpool hconnection⟩
      | none =>
        cases hmigrations : server.asked.asked.refusal with
        | some reason => exact .inr ⟨_, .migrations hsettings hpool hconnection hmigrations⟩
        | none =>
          have hconnected : Connected env server settings := ⟨hsettings, hpool, hconnection, hmigrations⟩
          cases hschedule : Schedule.read? settings.cleanup.schedule with
          | some s => exact .inl ⟨settings, hconnected, s, hschedule⟩
          | none => exact .inr ⟨_, .schedule hconnected hschedule⟩

theorem Ready.start_goesOn (h : Ready env server) (applied : Nat) : GoesOn (start env server applied) () := by
  obtain ⟨settings, hconnected, s, hschedule⟩ := h
  have hmigrate := migrate_goesOn applied hconnected.migrations
  have hconnect := connect_goesOn settings.store hconnected.pool hconnected.connection
  exact (readSettings_goesOn hconnected.settings).bind
    (hconnect.bind (hmigrate.bind (schedule_goesOn hschedule)))

/-- The first thing that goes wrong ends the service. -/
theorem Failure.start_ends (h : Failure env server message) (applied : Nat) :
    Ends (start env server applied) message := by
  cases h with
  | settings h => exact (readSettings_ends h).bind
  | pool hsettings h => exact (readSettings_goesOn hsettings).bind_ends (connect_ends_at_pool _ h).bind
  | connection hsettings hpool h =>
    exact (readSettings_goesOn hsettings).bind_ends (connect_ends_at_connection _ hpool h).bind
  | migrations hsettings hpool hconnection h =>
    exact (readSettings_goesOn hsettings).bind_ends
      ((connect_goesOn _ hpool hconnection).bind_ends (migrate_ends applied h).bind)
  | schedule hconnected h =>
    have hmigrate := migrate_goesOn applied hconnected.migrations
    exact (readSettings_goesOn hconnected.settings).bind_ends
      ((connect_goesOn _ hconnected.pool hconnected.connection).bind_ends
        (hmigrate.bind_ends (schedule_ends h)))

end Startup

section Runs

variable {env : Environment} {server : Server} {message : String} {line : LogLine}

/-- The lines that a run writes, shown or not. -/
def written (env : Environment) (server : Server) (applied : Nat) : List LogLine :=
  ((do start env server applied; stop : Startup Unit) []).2

theorem log_eq_filter (env : Environment) (server : Server) (applied : Nat) :
    (run env server applied).log = (written env server applied).filter (LogFilter.ofEnvironment env).shows := rfl

/-- A run that comes to wait says what it does, and no more. -/
theorem Ready.run (h : Ready env server) (applied : Nat) :
    (Service.run env server applied).succeeded = true ∧ ∀ line ∈ written env server applied, Tells line := by
  obtain ⟨said, hsaid, hrun⟩ := (h.start_goesOn applied).bind (f := fun _ => stop) (goesOn_info _ _)
  rw [Service.run, observe, written, hrun]
  exact ⟨rfl, hsaid⟩

/-- A run that fails says what it does up to its last words. -/
theorem Failure.run (h : Failure env server message) (applied : Nat) :
    (Service.run env server applied).succeeded = false ∧
      ∃ said, (∀ line ∈ said, Tells line) ∧ written env server applied = said ++ [lastWords message] := by
  obtain ⟨said, hsaid, hrun⟩ := (h.start_ends applied).bind (f := fun _ => stop)
  rw [Service.run, observe, written, hrun]
  exact ⟨rfl, said, hsaid, rfl⟩

/-- The service comes to wait exactly if nothing is wrong with its settings, the server and the schedule. -/
theorem run_succeeded_iff {applied : Nat} : (run env server applied).succeeded = true ↔ Ready env server := by
  refine ⟨fun h => ?_, fun h => (h.run applied).1⟩
  rcases ready_or_failure env server with hready | ⟨message, hfailure⟩
  · exact hready
  · rw [(hfailure.run applied).1] at h
    cases h

theorem Tells.level_eq (h : Tells line) : line.level = .info := by
  obtain ⟨part, message, rfl⟩ := h
  rfl

/-- The error that a run writes says what went wrong first. -/
theorem error_mem_written_iff {applied : Nat} :
    lastWords message ∈ written env server applied ↔ Failure env server message := by
  have hnot (said : List LogLine) (hsaid : ∀ line ∈ said, Tells line) : lastWords message ∉ said := fun hmem => by
    cases (hsaid _ hmem).level_eq
  constructor
  · intro hmem
    rcases ready_or_failure env server with hready | ⟨other, hfailure⟩
    · exact absurd hmem (hnot _ (hready.run applied).2)
    · obtain ⟨-, said, hsaid, hwritten⟩ := hfailure.run applied
      rw [hwritten, List.mem_append, or_iff_right (hnot said hsaid), List.mem_singleton] at hmem
      obtain rfl : message = other := congrArg LogLine.message hmem
      exact hfailure
  · intro h
    obtain ⟨-, said, -, hwritten⟩ := h.run applied
    rw [hwritten]
    exact List.mem_append_right _ List.mem_cons_self

/-- Where errors are shown, the last line is one exactly if the service failed, and says what went wrong
first. -/
theorem getLast?_log_eq_iff (hshows : (LogFilter.ofEnvironment env).shows (lastWords message) = true)
    (applied : Nat) :
    (run env server applied).log.getLast? = some (lastWords message) ↔ Failure env server message := by
  constructor
  · intro h
    have hmem := List.mem_of_getLast? h
    rw [log_eq_filter] at hmem
    exact error_mem_written_iff.mp (List.mem_filter.mp hmem).1
  · intro h
    obtain ⟨-, said, -, hwritten⟩ := h.run applied
    rw [log_eq_filter, hwritten, List.filter_append, List.filter_cons_of_pos hshows]
    exact List.getLast?_concat

/-- Every line of a run is about what a part of the service does, or its last words. -/
theorem mem_written {applied : Nat} (h : line ∈ written env server applied) :
    Tells line ∨ ∃ message, line = lastWords message := by
  rcases ready_or_failure env server with hready | ⟨message, hfailure⟩
  · exact .inl ((hready.run applied).2 line h)
  · obtain ⟨-, said, hsaid, hwritten⟩ := hfailure.run applied
    rw [hwritten] at h
    rcases List.mem_append.mp h with h | h
    · exact .inl (hsaid line h)
    · exact .inr ⟨message, List.mem_singleton.mp h⟩

theorem standard_shows (part : Part) {level : LogLevel} (hlevel : level.rank ≤ LogLevel.info.rank)
    (message : String) : LogFilter.standard.shows ⟨level, part.target, message⟩ = true := by
  have htarget : "market_data_store".toList.isPrefixOf part.target.toList = true := by cases part <;> decide
  refine LogFilter.shows_iff.mpr ⟨_, ⟨[], [], rfl, htarget, ?_, ?_⟩, hlevel⟩ <;> exact List.forall_mem_nil _

/-- Where no filter is asked for, every line is shown. -/
theorem log_eq_written (h : env "RUST_LOG" = none) (server : Server) (applied : Nat) :
    (run env server applied).log = written env server applied := by
  have hfilter : LogFilter.ofEnvironment env = .standard := by rw [LogFilter.ofEnvironment, h]
  rw [log_eq_filter, hfilter]
  refine List.filter_eq_self.mpr fun line hline => ?_
  rcases mem_written hline with ⟨part, message, rfl⟩ | ⟨message, rfl⟩
  · exact standard_shows part (Nat.le_refl _) message
  · exact standard_shows .main (by decide) message

end Runs

end Service

end PriceArchive
