import Awcotn.Locks.Functions

/-!
# The order of the locks

Nothing in the source names an order in which its locks are to be taken. There is one all the same: the registry, a variable, a manager's timers and its table of contexts, a context, the scheduler, the loggers, a logger, the root logger, an appender, and last the table of descriptors, which a lock may be followed by wherever it is held over a log statement or a `tickle`. Every function keeps to it, which `Call.orderly` collects from one lemma for each function, and so `never_stuck` holds: threads of a process never wait for each other's locks in a circle.

The order leaves no room. `Config::Lookup` formats the value of a variable with the registry held, so a listener, which runs with its variable held, must not look up another; and as `setValue` of the variable `logs` defines loggers anew, no logger may read a variable while it logs. What the listeners and the visitors of an application may call is what ranks above the locks they are called with.
-/

namespace Awcotn.Locks

open Locking Transition

def Lock.rank : Lock → ℕ
  | .registry => 1
  | .var _ => 2
  | .timers _ => 3
  | .fdContexts _ => 3
  | .fdContext _ _ => 4
  | .scheduler _ => 5
  | .loggers => 6
  | .logger l => if l = root then 8 else 7
  | .appender _ => 9
  | .fds => 10

theorem rank_le (k : Lock) : k.rank ≤ 10 := by
  cases k with
  | logger l =>
      simp only [Lock.rank]
      split_ifs <;> decide
  | _ => simp [Lock.rank]

theorem rank_logger_le (l : ℕ) : 7 ≤ (Lock.logger l).rank ∧ (Lock.logger l).rank ≤ 8 := by
  simp only [Lock.rank]
  split_ifs <;> decide

/-- A function that only acquires locks above `r`. -/
abbrev Keeps (r : ℕ) (e : Usage) : Prop := Orderly Lock.rank r e

variable {r : ℕ}

theorem Keeps.block (k : Lock) {e : Usage} (h : Keeps k.rank e) (hr : r < k.rank) (mode : Mode) : Keeps r (Locking.block k mode e) :=
  Orderly.block h hr mode

theorem Keeps.leaf (k : Lock) (hr : r < k.rank) (mode : Mode) : Keeps r (Locking.block k mode 1) := Orderly.leaf hr mode

/-! ### Descriptors and loggers -/

theorem FdManager.get_keeps (hr : r < 10) : Keeps r FdManager.get := (Keeps.leaf .fds hr _).mul (Keeps.leaf .fds hr _).opt

theorem io_keeps (hr : r < 10) : Keeps r io := (FdManager.get_keeps hr).opt

theorem LogAppender.log_keeps (hr : r < 10) : Keeps r LogAppender.log := (io_keeps hr).star

theorem LogAppender.locked_keeps (hr : r < 9) (a : ℕ) : Keeps r (LogAppender.locked a) := Keeps.leaf (.appender a) hr _

theorem Logger.rootLog_keeps (hr : r < 8) : Keeps r Logger.rootLog :=
  (Keeps.block (.logger root) (LogAppender.log_keeps (by decide)).star hr _).opt

/-- A logger that is not the root logger may pass an event on to that with its own lock held. -/
theorem Logger.log_keeps (hr : r < 7) (l : ℕ) : Keeps r (Logger.log l) := by
  simp only [Logger.log]
  split_ifs with hl
  · exact Logger.rootLog_keeps (hr.trans (by decide))
  · have hrank : (Lock.logger l).rank = 7 := by simp [Lock.rank, hl]
    have hinner : Keeps 7 (LogAppender.log.star + Logger.rootLog) :=
      (LogAppender.log_keeps (by decide)).star.add (Logger.rootLog_keeps (by decide))
    exact (Keeps.block (.logger l) (hrank ▸ hinner) (hrank ▸ hr) _).opt

/-- The functions that hold a logger, and an appender of it at a time. -/
theorem Logger.appenders_keeps (hr : r < 7) (l : ℕ) (appenders : List ℕ) :
    Keeps r (block (.logger l) .exclusive (seq (appenders.map LogAppender.locked))) := by
  have hrank := rank_logger_le l
  refine Keeps.block (.logger l) (Orderly.seq_map fun a _ => LogAppender.locked_keeps ?_ a) (hr.trans_le hrank.1) _
  exact Nat.lt_succ_of_le hrank.2

theorem Logger.addAppender_keeps (hr : r < 7) (l a : ℕ) : Keeps r (Logger.addAppender l a) := by
  have hrank := rank_logger_le l
  exact Keeps.block (.logger l) (LogAppender.locked_keeps (Nat.lt_succ_of_le hrank.2) a) (hr.trans_le hrank.1) _

theorem LogAppender.destroy_keeps (hr : r < 10) : Keeps r LogAppender.destroy := (io_keeps hr).star

theorem Logger.delAppender_keeps (hr : r < 7) (l : ℕ) (appenders : List ℕ) : Keeps r (Logger.delAppender l appenders) :=
  (Logger.appenders_keeps hr l appenders).mul (LogAppender.destroy_keeps (hr.trans (by decide)))

/-- What is left in the streams of the appenders is written with the logger held. -/
theorem Logger.clearAppenders_keeps (hr : r < 7) (l : ℕ) : Keeps r (Logger.clearAppenders l) := by
  have hrank := rank_logger_le l
  have hlt : (Lock.logger l).rank < 10 := hrank.2.trans_lt (by decide)
  exact Keeps.block (.logger l) (LogAppender.destroy_keeps hlt).star (hr.trans_le hrank.1) _

theorem LoggerManager.getLogger_keeps (hr : r < 6) : Keeps r LoggerManager.getLogger := Keeps.leaf .loggers hr _

theorem LoggerManager.toYamlString_keeps (hr : r < 6) (ls : List (ℕ × List ℕ)) : Keeps r (LoggerManager.toYamlString ls) :=
  Keeps.block .loggers (Orderly.seq_map fun l _ => Logger.appenders_keeps (by decide) l.1 l.2) hr _

theorem assertion_keeps (hr : r < 7) : Keeps r assertion := (Logger.log_keeps hr system).mul (Logger.log_keeps hr root)

/-! ### Fibers and schedulers -/

theorem ConfigVar.getValue_keeps (hr : r < 2) (v : ℕ) : Keeps r (ConfigVar.getValue v) := Keeps.leaf (.var v) hr _

theorem Fiber.GetThis_keeps (hr : r < 7) : Keeps r Fiber.GetThis :=
  (((assertion_keeps hr).mul (Logger.log_keeps hr system)).mul (assertion_keeps hr)).opt

theorem Fiber.create_keeps (hr : r < 2) : Keeps r Fiber.create := by
  have hlt : r < 7 := hr.trans (by decide)
  exact ((ConfigVar.getValue_keeps hr stackSize).opt.mul (assertion_keeps hlt)).mul (Logger.log_keeps hlt system)

theorem Fiber.destroy_keeps (hr : r < 7) : Keeps r Fiber.destroy :=
  (((assertion_keeps hr).mul (Logger.log_keeps hr system)).mul (assertion_keeps hr)).mul (Logger.log_keeps hr system)

theorem Fiber.switch_keeps (hr : r < 7) : Keeps r Fiber.switch :=
  ((((Fiber.GetThis_keeps hr).mul (assertion_keeps hr)).mul (assertion_keeps hr)).mul (Logger.log_keeps hr system)).mul
    (assertion_keeps hr)

theorem tickle_keeps (hr : r < 7) : Keeps r tickle :=
  (Logger.log_keeps hr system).add ((io_keeps (hr.trans (by decide))).opt.mul (assertion_keeps hr))

theorem Scheduler.stopping_keeps (hr : r < 5) (m : ℕ) : Keeps r (Scheduler.stopping m) := Keeps.leaf (.scheduler m) hr _

theorem Scheduler.schedule_keeps (hr : r < 5) (m : ℕ) : Keeps r (Scheduler.schedule m) :=
  (Scheduler.stopping_keeps hr m).mul (tickle_keeps (hr.trans (by decide))).opt

theorem Scheduler.start_keeps (hr : r < 5) (m : ℕ) : Keeps r (Scheduler.start m) := by
  have hinner : Keeps 5 (assertion * (Logger.log system).star) :=
    (assertion_keeps (by decide)).mul (Logger.log_keeps (by decide) system).star
  exact Keeps.block (.scheduler m) hinner hr _

theorem Scheduler.enter_keeps (hr : r < 2) : Keeps r Scheduler.enter := by
  have hlt : r < 7 := hr.trans (by decide)
  exact ((Logger.log_keeps hlt system).mul (Fiber.GetThis_keeps hlt)).mul (Fiber.create_keeps hr)

theorem Scheduler.dequeue_keeps (hr : r < 2) (m : ℕ) : Keeps r (Scheduler.dequeue m) := by
  have hlt : r < 7 := hr.trans (by decide)
  have hinner : Keeps 5 (assertion.star * Logger.log system) :=
    (assertion_keeps (by decide)).star.mul (Logger.log_keeps (by decide) system)
  have hblock : Keeps r (block (.scheduler m) .exclusive (assertion.star * Logger.log system)) :=
    Keeps.block (.scheduler m) hinner (hr.trans (by decide : 2 < 5)) _
  exact ((hblock.mul (tickle_keeps hlt).opt).mul (Fiber.create_keeps hr).opt).mul (Fiber.switch_keeps hlt)

theorem Scheduler.settle_keeps (hr : r < 5) (m : ℕ) : Keeps r (Scheduler.settle m) := by
  have hlt : r < 7 := hr.trans (by decide)
  exact ((Scheduler.schedule_keeps hr m).opt.mul (Fiber.destroy_keeps hlt).star).mul (Logger.log_keeps hlt system)

/-! ### Timers and events -/

theorem Timer.cancel_keeps (hr : r < 3) (m : ℕ) : Keeps r (Timer.cancel m) :=
  Keeps.block (.timers m) (Fiber.destroy_keeps (by decide : 3 < 7)).star hr _

theorem TimerManager.addTimer_keeps (hr : r < 3) (m : ℕ) : Keeps r (TimerManager.addTimer m) := by
  have hblock : Keeps r (block (.timers m) .exclusive 1) := Keeps.leaf (.timers m) hr _
  exact (hblock.mul (tickle_keeps (hr.trans (by decide))).opt).opt

theorem TimerManager.getNextTimer_keeps (hr : r < 3) (m : ℕ) : Keeps r (TimerManager.getNextTimer m) := Keeps.leaf (.timers m) hr _

theorem TimerManager.listExpiredCb_keeps (hr : r < 3) (m : ℕ) : Keeps r (TimerManager.listExpiredCb m) := by
  have hblock : Keeps r (block (.timers m) .exclusive 1) := Keeps.leaf (.timers m) hr _
  exact (TimerManager.getNextTimer_keeps hr m).mul hblock.opt

/-- An event is triggered with its context held. -/
theorem FdContext.triggerEvent_keeps (hr : r < 5) (n : ℕ) : Keeps r (FdContext.triggerEvent n) := by
  have hassert := assertion_keeps (r := r) (hr.trans (by decide))
  exact (hassert.mul hassert).mul (Scheduler.schedule_keeps hr n)

theorem IOManager.addEvent_keeps (hr : r < 3) (m fd : ℕ) : Keeps r (IOManager.addEvent m fd) := by
  have hassert : Keeps 4 assertion := assertion_keeps (by decide)
  have hlog : Keeps 4 (Logger.log system) := Logger.log_keeps (by decide) system
  have hinner : Keeps 4 (Logger.log system * assertion * (Logger.log system + assertion * assertion * (1 + Fiber.GetThis * assertion))) :=
    (hlog.mul hassert).mul (hlog.add ((hassert.mul hassert).mul ((Fiber.GetThis_keeps (by decide)).mul hassert).opt))
  have hread : Keeps r (block (.fdContexts m) .shared 1) := Keeps.leaf (.fdContexts m) hr _
  have hwrite : Keeps r (block (.fdContexts m) .exclusive 1) := Keeps.leaf (.fdContexts m) hr _
  exact (hread.mul hwrite.opt).mul (Keeps.block (.fdContext m fd) hinner (hr.trans (by decide : 3 < 4)) _)

theorem IOManager.withContext_keeps (hr : r < 3) (m fd : ℕ) {inner : Usage} (h : Keeps 4 inner) :
    Keeps r (IOManager.withContext m fd inner) := by
  have hread : Keeps r (block (.fdContexts m) .shared 1) := Keeps.leaf (.fdContexts m) hr _
  have hinner : Keeps 4 (1 + Logger.log system + inner) := (Logger.log_keeps (by decide) system).opt.add h
  exact hread.mul (Keeps.block (.fdContext m fd) hinner (hr.trans (by decide : 3 < 4)) _).opt

theorem IOManager.delEvent_keeps (hr : r < 3) (m fd : ℕ) : Keeps r (IOManager.delEvent m fd) :=
  IOManager.withContext_keeps hr m fd ((assertion_keeps (by decide)).mul (Fiber.destroy_keeps (by decide)).star)

theorem IOManager.cancelEvent_keeps (hr : r < 3) (m fd n : ℕ) : Keeps r (IOManager.cancelEvent m fd n) :=
  IOManager.withContext_keeps hr m fd (FdContext.triggerEvent_keeps (by decide) n)

theorem IOManager.cancelAll_keeps (hr : r < 3) (m fd n n' : ℕ) : Keeps r (IOManager.cancelAll m fd n n') :=
  IOManager.withContext_keeps hr m fd
    (((FdContext.triggerEvent_keeps (by decide) n).opt.mul (FdContext.triggerEvent_keeps (by decide) n').opt).mul
      (assertion_keeps (by decide)))

theorem IOManager.stopping_keeps (hr : r < 3) (m : ℕ) : Keeps r (IOManager.stopping m) := by
  have hnext := TimerManager.getNextTimer_keeps hr m
  exact (hnext.opt.mul hnext).mul (Scheduler.stopping_keeps (hr.trans (by decide)) m).opt

theorem IOManager.handle_keeps (hr : r < 3) (m : ℕ) (e : Reported) : Keeps r (IOManager.handle m e) := by
  have hinner : Keeps 4 (1 + Logger.log system + (1 + FdContext.triggerEvent e.read) * (1 + FdContext.triggerEvent e.write)) :=
    (Logger.log_keeps (by decide) system).opt.add
      ((FdContext.triggerEvent_keeps (by decide) e.read).opt.mul (FdContext.triggerEvent_keeps (by decide) e.write).opt)
  exact (io_keeps (hr.trans (by decide))).star.add (Keeps.block (.fdContext m e.fd) hinner (hr.trans (by decide : 3 < 4)) _)

theorem IOManager.idle_keeps (hr : r < 3) (m : ℕ) (reported : List Reported) : Keeps r (IOManager.idle m reported) := by
  have hlt : r < 7 := hr.trans (by decide)
  have hexpired := (TimerManager.listExpiredCb_keeps hr m).mul (Scheduler.schedule_keeps (hr.trans (by decide)) m).opt
  have hhandled : Keeps r (seq (reported.map (IOManager.handle m))) := Orderly.seq_map fun e _ => IOManager.handle_keeps hr m e
  exact (IOManager.stopping_keeps hr m).mul
    ((Logger.log_keeps hlt system).add ((hexpired.mul hhandled).mul (Fiber.GetThis_keeps hlt)))

/-! ### Hooks -/

theorem wait_keeps (hr : r < 3) (m fd : ℕ) : Keeps r (wait m fd) := by
  have hlt : r < 7 := hr.trans (by decide)
  have hlog := Logger.log_keeps hlt system
  have htimer := ((((io_keeps (hr.trans (by decide))).mul hlog).mul (TimerManager.addTimer_keeps hr m).opt).mul hlog)
  exact (htimer.mul (IOManager.addEvent_keeps hr m fd).opt).mul
    ((Fiber.GetThis_keeps hlt).opt.add (hlog.mul (Timer.cancel_keeps hr m).opt))

theorem sleep_keeps (hr : r < 3) (m : ℕ) : Keeps r (sleep m) := by
  have hthis := Fiber.GetThis_keeps (r := r) (hr.trans (by decide))
  exact (hthis.mul (TimerManager.addTimer_keeps hr m)).mul hthis

theorem descriptor_keeps (hr : r < 7) : Keeps r descriptor :=
  (Logger.log_keeps hr system).opt.add (FdManager.get_keeps (hr.trans (by decide)))

theorem close_keeps (hr : r < 3) (m fd n n' : ℕ) : Keeps r (close m fd n n') := by
  have hlt : r < 10 := hr.trans (by decide)
  have hdel : Keeps r FdManager.del := Keeps.leaf .fds hlt _
  exact ((FdManager.get_keeps hlt).mul ((IOManager.cancelAll_keeps hr m fd n n').opt.mul hdel).opt).opt

theorem Scheduler.stop_keeps (hr : r < 3) (m : ℕ) : Keeps r (Scheduler.stop m) := by
  have hlt : r < 7 := hr.trans (by decide)
  have hlog := Logger.log_keeps hlt system
  have hstopping := (IOManager.stopping_keeps hr m).opt
  exact ((((hlog.mul (hlog.mul hstopping).opt).mul (assertion_keeps hlt)).mul (tickle_keeps hlt).star).mul hstopping).mul
    (Fiber.switch_keeps hlt)

theorem Scheduler.stopped_keeps (hr : r < 5) (m : ℕ) : Keeps r (Scheduler.stopped m) :=
  (Scheduler.stopping_keeps hr m).mul (Logger.log_keeps (hr.trans (by decide)) system).star

/-! ### Configuration -/

theorem LogIniter.redefine_keeps (hr : r < 6) (d : Redefined) : Keeps r (LogIniter.redefine d) := by
  have hlt : r < 7 := hr.trans (by decide)
  have hget := LoggerManager.getLogger_keeps hr
  have hclear := Logger.clearAppenders_keeps hlt
  have hformat : Keeps r (1 + Logger.setFormatter d.logger d.before) := (Logger.appenders_keeps hlt d.logger d.before).opt.opt
  exact (((hget.mul hformat).mul (hclear d.logger)).mul (Orderly.seq_map fun a _ => Logger.addAppender_keeps hlt d.logger a)).mul
    (Orderly.seq_map fun l _ => hget.mul (hclear l))

/-- What a listener may call takes no variable and no registry. -/
theorem ListenerCall.keeps (hr : r < 3) (c : ListenerCall) : Keeps r c.locks := by
  have hfive : r < 5 := hr.trans (by decide)
  have hsix : r < 6 := hr.trans (by decide)
  have hseven : r < 7 := hr.trans (by decide)
  have hten : r < 10 := hr.trans (by decide)
  cases c with
  | log l => exact Logger.log_keeps hseven l
  | setFormatter l appenders => exact (Logger.appenders_keeps hseven l appenders).opt
  | addAppender l a => exact Logger.addAppender_keeps hseven l a
  | delAppender l appenders => exact Logger.delAppender_keeps hseven l appenders
  | clearAppenders l => exact Logger.clearAppenders_keeps hseven l
  | getFormatter a => exact LogAppender.locked_keeps (hr.trans (by decide)) a
  | deleteAppender => exact LogAppender.destroy_keeps hten
  | getLogger => exact LoggerManager.getLogger_keeps hsix
  | loggerToYaml l appenders => exact Logger.appenders_keeps hseven l appenders
  | loggersToYaml ls => exact LoggerManager.toYamlString_keeps hsix ls
  | getThis => exact Fiber.GetThis_keeps hseven
  | deleteFiber => exact Fiber.destroy_keeps hseven
  | schedule m => exact Scheduler.schedule_keeps hfive m
  | start m => exact Scheduler.start_keeps hfive m
  | addTimer m => exact TimerManager.addTimer_keeps hr m
  | cancelTimer m => exact Timer.cancel_keeps hr m
  | hasTimer m => exact TimerManager.getNextTimer_keeps hr m
  | listExpiredCb m => exact TimerManager.listExpiredCb_keeps hr m
  | addEvent m fd => exact IOManager.addEvent_keeps hr m fd
  | delEvent m fd => exact IOManager.delEvent_keeps hr m fd
  | cancelEvent m fd n => exact IOManager.cancelEvent_keeps hr m fd n
  | cancelAll m fd n n' => exact IOManager.cancelAll_keeps hr m fd n n'
  | getContext => exact FdManager.get_keeps hten
  | delContext => exact Keeps.leaf .fds hten _
  | descriptor => exact descriptor_keeps hseven
  | close m fd n n' => exact close_keeps hr m fd n n'

/-- A listener takes no variable and no registry. -/
theorem Listener.keeps (hr : r < 3) (l : Listener) : Keeps r l.locks := by
  cases l with
  | logs redefined =>
      exact (Logger.log_keeps (hr.trans (by decide)) root).mul
        (Orderly.seq_map fun d _ => LogIniter.redefine_keeps (hr.trans (by decide)) d)
  | tcpConnectTimeout => exact Logger.log_keeps (hr.trans (by decide)) system
  | application calls => exact Orderly.seq_map fun c _ => c.keeps hr

theorem ConfigVar.toString_keeps (hr : r < 2) (v : ℕ) : Keeps r (ConfigVar.toString v) :=
  (ConfigVar.getValue_keeps hr v).mul (Logger.log_keeps (hr.trans (by decide)) root)

theorem ConfigVar.addListener_keeps (hr : r < 2) (v : ℕ) : Keeps r (ConfigVar.addListener v) := Keeps.leaf (.var v) hr _

theorem ConfigVar.setValue_keeps (hr : r < 2) (v : ℕ) (listeners : List Listener) : Keeps r (ConfigVar.setValue v listeners) := by
  have hlisteners : Keeps 2 (seq (listeners.map Listener.locks)) := Orderly.seq_map fun l _ => l.keeps (by decide)
  exact (Keeps.block (.var v) hlisteners hr _).mul (ConfigVar.addListener_keeps hr v).opt

theorem ConfigVar.fromString_keeps (hr : r < 2) (v : ℕ) (listeners : List Listener) : Keeps r (ConfigVar.fromString v listeners) :=
  (ConfigVar.setValue_keeps hr v listeners).opt.mul (Logger.log_keeps (hr.trans (by decide)) root)

/-- What a callback of `Visit` may call does not take the registry. -/
theorem VisitCall.keeps (hr : r < 2) (c : VisitCall) : Keeps r c.locks := by
  cases c with
  | other c => exact c.keeps (hr.trans (by decide))
  | toString v => exact ConfigVar.toString_keeps hr v
  | getValue v => exact ConfigVar.getValue_keeps hr v
  | setValue v listeners => exact ConfigVar.setValue_keeps hr v listeners
  | fromString v listeners => exact ConfigVar.fromString_keeps hr v listeners
  | addListener v => exact ConfigVar.addListener_keeps hr v
  | newFiber => exact Fiber.create_keeps hr

theorem Config.Visit_keeps (hr : r < 1) (calls : List VisitCall) : Keeps r (Config.Visit calls) :=
  Keeps.block .registry (Orderly.seq_map fun c _ => c.keeps (by decide)) hr _

theorem Config.Lookup_keeps (hr : r < 1) (v : ℕ) : Keeps r (Config.Lookup v) := by
  have hlog : Keeps 1 (Logger.log root) := Logger.log_keeps (by decide) root
  have hinner : Keeps 1 (1 + Logger.log root + ConfigVar.toString v * Logger.log root) :=
    hlog.opt.add ((ConfigVar.toString_keeps (by decide) v).mul hlog)
  exact Keeps.block .registry hinner hr _

theorem Config.LookupBase_keeps (hr : r < 1) : Keeps r Config.LookupBase := Keeps.leaf .registry hr _

theorem Config.LoadFromYaml_keeps (hr : r < 1) (vars : List (ℕ × List Listener)) : Keeps r (Config.LoadFromYaml vars) := by
  have hlt : r < 2 := hr.trans (by decide)
  exact (Logger.log_keeps (hr.trans (by decide)) root).star.mul
    (Orderly.seq_map fun v _ => (Config.LookupBase_keeps hr).mul (ConfigVar.fromString_keeps hlt v.1 v.2).opt)

/-! ### All functions -/

/-- Every function keeps to the order. -/
theorem Call.orderly (c : Call) : Keeps 0 c.locks := by
  cases c with
  | other c => exact c.keeps (by decide)
  | lookup v => exact Config.Lookup_keeps (by decide) v
  | lookupBase => exact Config.LookupBase_keeps (by decide)
  | visit calls => exact Config.Visit_keeps (by decide) calls
  | loadFromYaml vars => exact Config.LoadFromYaml_keeps (by decide) vars
  | switch => exact Fiber.switch_keeps (by decide)
  | enter => exact Scheduler.enter_keeps (by decide)
  | dequeue m => exact Scheduler.dequeue_keeps (by decide) m
  | settle m => exact Scheduler.settle_keeps (by decide) m
  | stop m => exact Scheduler.stop_keeps (by decide) m
  | stopped m => exact Scheduler.stopped_keeps (by decide) m
  | idle m reported => exact IOManager.idle_keeps (by decide) m reported
  | wait m fd => exact wait_keeps (by decide) m fd
  | waited m => exact (Timer.cancel_keeps (by decide) m).opt
  | sleep m => exact sleep_keeps (by decide) m

/-- What a thread does with locks if it makes these calls. -/
def usage (calls : List Call) : Usage := seq (calls.map Call.locks)

/-- Whatever the threads of a process call, and in whatever order they come to run, in every state of the run some thread that is not done needs no lock that another holds, and all of them can be brought to their ends, where every lock has been released. -/
theorem never_stuck {T : Type} [Fintype T] (calls : T → List Call) (traces : T → Trace Lock)
    (h : ∀ t, traces t ∈ (usage (calls t)).matches') (acts : List T) :
    Throughout step (fun s => ((∃ t, s.rest t ≠ []) → ∃ t, s.rest t ≠ [] ∧ Free s t) ∧
      ∃ more s', run step s more = .next s' ∧ ∀ t, s'.rest t = [] ∧ s'.held t = []) (start traces) acts := by
  have habove : ∀ t, Above Lock.rank 0 (traces t) := by
    intro t
    have hcalls : Keeps 0 (usage (calls t)) := Orderly.seq_map fun c _ => c.orderly
    exact hcalls (traces t) (h t)
  exact free_of_run habove rank_le acts

/-- A thread that looks a variable up under another type, and one that sets it, with a listener that schedules a task, and then visits it. -/
def lookupAndSet : Bool → List Call
  | true => [.lookup 0]
  | false => [.other (.setValue 0 [.application [.schedule 0]]), .visit [.getValue 0]]

/-- The one logs with the registry held; the other takes the mutex of the scheduler with the variable held, and the variable with the registry held. -/
def lookupAndSetTraces : Bool → Trace Lock
  | true =>
    [.acquire .registry .exclusive, .acquire (.var 0) .shared, .release (.var 0), .acquire (.logger root) .exclusive,
      .acquire .fds .shared, .release .fds, .release (.logger root), .release .registry]
  | false =>
    [.acquire (.var 0) .shared, .acquire (.scheduler 0) .exclusive, .release (.scheduler 0), .release (.var 0),
      .acquire (.var 0) .exclusive, .release (.var 0), .acquire .registry .shared, .acquire (.var 0) .shared,
      .release (.var 0), .release .registry]

theorem never_stuck_lookup_and_set :
    Throughout step (fun s => ((∃ t, s.rest t ≠ []) → ∃ t, s.rest t ≠ [] ∧ Free s t) ∧
      ∃ more s', run step s more = .next s' ∧ ∀ t, s'.rest t = [] ∧ s'.held t = []) (start lookupAndSetTraces)
        [true, false, true, false] := by
  refine never_stuck lookupAndSet lookupAndSetTraces (fun t => ?_) _
  rw [← RegularExpression.rmatch_iff_matches']
  cases t
  · decide +kernel
  · decide +kernel

end Awcotn.Locks
