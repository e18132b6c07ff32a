import Awcotn.Foundation.Locking

/-!
# What the functions do with locks

Each function of the library with the locks it acquires and releases, and those of the functions it calls while it holds one: `ScopedLockImpl` and its kin hold a lock for the length of a block, and `unlock` ends a block early. Branches are left open, so that the expression of a function has at least its traces.

The hooks are part of this. `FileLogAppender::log` writes to its stream and `IOManager::tickle` to a pipe, both through the hooked `write`, which looks up the context of the descriptor; it goes no further there, since neither a file nor a pipe in blocking mode answers `EAGAIN`. The stream of a `FileLogAppender` writes what is left of its buffer when the last reference to the appender goes, which may be with a logger held. The standard output is written by the C library itself. A fiber is logged where its last reference goes, also where a lock is held.

No function waits for a switch with a lock held. What a fiber does is cut where it is switched out, and the parts of `do_io`, of `connect` and of the loops in `run` and `idle` stand by themselves.

An application has two kinds of callbacks called with a lock held: its listeners, with their variable held, and what it passes to `Visit`, with the registry held. `ListenerCall` and `VisitCall` list what they may call here; a listener that looks a variable up or a callback of `Visit` that does so again can wait for its own thread. Its appenders, conversions and comparisons are taken to use no lock, and so are the destructors of what its functions capture, fibers apart. Waiting for a thread to start or to end is not part of this.
-/

namespace Awcotn.Locks

open Locking

/-- The mutexes of the library. Registry and loggers have one each, every object of the other classes has its own; an `IOManager` has its own three, since it is a `Scheduler` and a `TimerManager` too. -/
inductive Lock
  | registry
  | var (v : ℕ)
  | timers (m : ℕ)
  | fdContexts (m : ℕ)
  | fdContext (m fd : ℕ)
  | scheduler (m : ℕ)
  | loggers
  | logger (l : ℕ)
  | appender (a : ℕ)
  | fds
  deriving DecidableEq

abbrev Usage := RegularExpression (Locking.Event Lock)

/-- The root logger. -/
def root : ℕ := 0

/-- The logger `system`. -/
def system : ℕ := 1

/-- The variable `fiber.stack_size`. -/
def stackSize : ℕ := 0

/-! ### Contexts of descriptors -/

/-- `FdManager::get` -/
def FdManager.get : Usage := block .fds .shared 1 * (1 + block .fds .exclusive 1)

/-- `FdManager::del` -/
def FdManager.del : Usage := block .fds .exclusive 1

/-- `write` and `read` of a descriptor that never answers `EAGAIN`, on a thread with the hooks enabled or not. -/
def io : Usage := 1 + FdManager.get

/-! ### Loggers -/

/-- `LogAppender::log` -/
def LogAppender.log : Usage := io.star

/-- `LogAppender::getFormatter`, `LogAppender::toYamlString` -/
def LogAppender.locked (a : ℕ) : Usage := block (.appender a) .exclusive 1

/-- `Logger::log` of the root logger, which has no `m_root`. -/
def Logger.rootLog : Usage := 1 + block (.logger root) .exclusive LogAppender.log.star

/-- `Logger::log` -/
def Logger.log (l : ℕ) : Usage :=
  if l = root then Logger.rootLog else 1 + block (.logger l) .exclusive (LogAppender.log.star + Logger.rootLog)

/-- `Logger::setFormatter`, of a logger with these appenders. -/
def Logger.setFormatter (l : ℕ) (appenders : List ℕ) : Usage :=
  1 + block (.logger l) .exclusive (seq (appenders.map LogAppender.locked))

/-- `Logger::addAppender` -/
def Logger.addAppender (l a : ℕ) : Usage := block (.logger l) .exclusive (LogAppender.locked a)

/-- `LogAppender::~LogAppender`, and `FileLogAppender::reopen`. -/
def LogAppender.destroy : Usage := io.star

/-- `Logger::delAppender`, with the appenders up to the one it finds. Its caller may have the last reference to that. -/
def Logger.delAppender (l : ℕ) (appenders : List ℕ) : Usage :=
  block (.logger l) .exclusive (seq (appenders.map LogAppender.locked)) * LogAppender.destroy

/-- `Logger::clearAppenders`, which may have the last references. -/
def Logger.clearAppenders (l : ℕ) : Usage := block (.logger l) .exclusive LogAppender.destroy.star

/-- `Logger::toYamlString` -/
def Logger.toYamlString (l : ℕ) (appenders : List ℕ) : Usage :=
  block (.logger l) .exclusive (seq (appenders.map LogAppender.locked))

/-- `LoggerManager::getLogger` -/
def LoggerManager.getLogger : Usage := block .loggers .exclusive 1

/-- `LoggerManager::toYamlString`, of these loggers with their appenders. -/
def LoggerManager.toYamlString (ls : List (ℕ × List ℕ)) : Usage :=
  block .loggers .exclusive (seq (ls.map fun l => Logger.toYamlString l.1 l.2))

/-- `AWCOTN_ASSERT`: one that fails logs to the root logger, with a backtrace that may log too, before the process ends. -/
def assertion : Usage := Logger.log system * Logger.log root

/-! ### Fibers -/

/-- `ConfigVar::getValue`, `ConfigVar::getListener` -/
def ConfigVar.getValue (v : ℕ) : Usage := block (.var v) .shared 1

/-- `Fiber::GetThis` -/
def Fiber.GetThis : Usage := 1 + assertion * Logger.log system * assertion

/-- `Fiber::Fiber` -/
def Fiber.create : Usage := (1 + ConfigVar.getValue stackSize) * assertion * Logger.log system

/-- `Fiber::~Fiber` -/
def Fiber.destroy : Usage := assertion * Logger.log system * assertion * Logger.log system

/-- `Fiber::swapIn`, `Fiber::call`, `Fiber::reset`, `YieldToReady` and `YieldToHold` up to the switch, and what `MainFunc` does at the end of its function. -/
def Fiber.switch : Usage := Fiber.GetThis * assertion * assertion * Logger.log system * assertion

/-! ### Schedulers -/

/-- `Scheduler::tickle`, and that of an `IOManager`. -/
def tickle : Usage := Logger.log system + (1 + io) * assertion

/-- `Scheduler::schedule` -/
def Scheduler.schedule (m : ℕ) : Usage := block (.scheduler m) .exclusive 1 * (1 + tickle)

/-- `Scheduler::stopping` -/
def Scheduler.stopping (m : ℕ) : Usage := block (.scheduler m) .exclusive 1

/-- `Scheduler::start`. Its threads take no lock before the constructors return. -/
def Scheduler.start (m : ℕ) : Usage := block (.scheduler m) .exclusive (assertion * (Logger.log system).star)

/-- `Scheduler::run` up to its loop. -/
def Scheduler.enter : Usage := Logger.log system * Fiber.GetThis * Fiber.create

/-- One pass of the loop in `Scheduler::run`, up to the switch to a fiber. -/
def Scheduler.dequeue (m : ℕ) : Usage :=
  block (.scheduler m) .exclusive (assertion.star * Logger.log system) * (1 + tickle) * (1 + Fiber.create) * Fiber.switch

/-- The pass after the switch back. -/
def Scheduler.settle (m : ℕ) : Usage := (1 + Scheduler.schedule m) * Fiber.destroy.star * Logger.log system

/-! ### Timers -/

/-- `Timer::cancel`. The callback may have the last reference to fibers. -/
def Timer.cancel (m : ℕ) : Usage := block (.timers m) .exclusive Fiber.destroy.star

/-- `TimerManager::addTimer`, `Timer::refresh`, `Timer::reset`: the lock is released before `onTimerInsertedAtFront`. -/
def TimerManager.addTimer (m : ℕ) : Usage := 1 + block (.timers m) .exclusive 1 * (1 + tickle)

/-- `TimerManager::getNextTimer`, `TimerManager::hasTimer` -/
def TimerManager.getNextTimer (m : ℕ) : Usage := block (.timers m) .shared 1

/-- `TimerManager::listExpiredCb` -/
def TimerManager.listExpiredCb (m : ℕ) : Usage := block (.timers m) .shared 1 * (1 + block (.timers m) .exclusive 1)

/-! ### I/O managers -/

/-- `FdContext::triggerEvent`, where the event belongs to the scheduler `n`. -/
def FdContext.triggerEvent (n : ℕ) : Usage := assertion * assertion * Scheduler.schedule n

/-- `FdContext::resetContext` -/
def FdContext.resetContext : Usage := Fiber.destroy.star

/-- `IOManager::addEvent` -/
def IOManager.addEvent (m fd : ℕ) : Usage :=
  block (.fdContexts m) .shared 1 * (1 + block (.fdContexts m) .exclusive 1)
    * block (.fdContext m fd) .exclusive
        (Logger.log system * assertion * (Logger.log system + assertion * assertion * (1 + Fiber.GetThis * assertion)))

/-- `IOManager::delEvent`, `cancelEvent` and `cancelAll` have this in common: the context is looked up, and locked where there is one. -/
def IOManager.withContext (m fd : ℕ) (inner : Usage) : Usage :=
  block (.fdContexts m) .shared 1 * (1 + block (.fdContext m fd) .exclusive (1 + Logger.log system + inner))

/-- `IOManager::delEvent` -/
def IOManager.delEvent (m fd : ℕ) : Usage := IOManager.withContext m fd (assertion * FdContext.resetContext)

/-- `IOManager::cancelEvent` -/
def IOManager.cancelEvent (m fd n : ℕ) : Usage := IOManager.withContext m fd (FdContext.triggerEvent n)

/-- `IOManager::cancelAll` -/
def IOManager.cancelAll (m fd n n' : ℕ) : Usage :=
  IOManager.withContext m fd ((1 + FdContext.triggerEvent n) * (1 + FdContext.triggerEvent n') * assertion)

/-- `IOManager::stopping` -/
def IOManager.stopping (m : ℕ) : Usage :=
  (1 + TimerManager.getNextTimer m) * TimerManager.getNextTimer m * (1 + Scheduler.stopping m)

/-- An event that `epoll_wait` has reported: of which descriptor, and to which schedulers its events belong. -/
structure Reported where
  fd : ℕ
  read : ℕ
  write : ℕ

/-- `IOManager::idle` on an event: of the pipe, or of a descriptor with a context. -/
def IOManager.handle (m : ℕ) (e : Reported) : Usage :=
  io.star + block (.fdContext m e.fd) .exclusive
    (1 + Logger.log system + (1 + FdContext.triggerEvent e.read) * (1 + FdContext.triggerEvent e.write))

/-- One pass of the loop in `IOManager::idle`, up to the switch. -/
def IOManager.idle (m : ℕ) (reported : List Reported) : Usage :=
  IOManager.stopping m * (Logger.log system
    + TimerManager.listExpiredCb m * (1 + Scheduler.schedule m) * seq (reported.map (IOManager.handle m)) * Fiber.GetThis)

/-! ### Hooks -/

/-- `do_io` and `connect_with_timeout` from the lookup of the context up to the switch, with the manager `m` of the thread: one try that may have to wait. -/
def wait (m fd : ℕ) : Usage :=
  io * Logger.log system * (1 + TimerManager.addTimer m) * Logger.log system * (1 + IOManager.addEvent m fd)
    * (1 + Fiber.GetThis + Logger.log system * (1 + Timer.cancel m))

/-- The same after the switch back, up to the next try. -/
def waited (m : ℕ) : Usage := 1 + Timer.cancel m

/-- `sleep`, `usleep` and `nanosleep` up to the switch. -/
def sleep (m : ℕ) : Usage := Fiber.GetThis * TimerManager.addTimer m * Fiber.GetThis

/-- `socket` and `accept` once they have a descriptor; `fcntl`, `ioctl` and `setsockopt`. -/
def descriptor : Usage := 1 + Logger.log system + FdManager.get

/-- `close` -/
def close (m fd n n' : ℕ) : Usage := 1 + FdManager.get * (1 + (1 + IOManager.cancelAll m fd n n') * FdManager.del)

/-! ### Configuration -/

/-- A logger that `LogIniter`'s listener defines anew: the appenders it had and gets, and the loggers it finds removed. -/
structure Redefined where
  logger : ℕ
  before : List ℕ
  appenders : List ℕ
  removed : List ℕ

/-- The pass of the loop for one logger. -/
def LogIniter.redefine (d : Redefined) : Usage :=
  LoggerManager.getLogger * (1 + Logger.setFormatter d.logger d.before) * Logger.clearAppenders d.logger
    * seq (d.appenders.map (Logger.addAppender d.logger))
    * seq (d.removed.map fun l => LoggerManager.getLogger * Logger.clearAppenders l)

/-- What a listener of an application may call: whatever touches no variable and does not give up the thread. -/
inductive ListenerCall
  | log (l : ℕ)
  | setFormatter (l : ℕ) (appenders : List ℕ)
  | addAppender (l a : ℕ)
  | delAppender (l : ℕ) (appenders : List ℕ)
  | clearAppenders (l : ℕ)
  | getFormatter (a : ℕ)
  | deleteAppender
  | getLogger
  | loggerToYaml (l : ℕ) (appenders : List ℕ)
  | loggersToYaml (ls : List (ℕ × List ℕ))
  | getThis
  | deleteFiber
  | schedule (m : ℕ)
  | start (m : ℕ)
  | addTimer (m : ℕ)
  | cancelTimer (m : ℕ)
  | hasTimer (m : ℕ)
  | listExpiredCb (m : ℕ)
  | addEvent (m fd : ℕ)
  | delEvent (m fd : ℕ)
  | cancelEvent (m fd n : ℕ)
  | cancelAll (m fd n n' : ℕ)
  | getContext
  | delContext
  | descriptor
  | close (m fd n n' : ℕ)

def ListenerCall.locks : ListenerCall → Usage
  | .log l => Logger.log l
  | .setFormatter l appenders => Logger.setFormatter l appenders
  | .addAppender l a => Logger.addAppender l a
  | .delAppender l appenders => Logger.delAppender l appenders
  | .clearAppenders l => Logger.clearAppenders l
  | .getFormatter a => LogAppender.locked a
  | .deleteAppender => LogAppender.destroy
  | .getLogger => LoggerManager.getLogger
  | .loggerToYaml l appenders => Logger.toYamlString l appenders
  | .loggersToYaml ls => LoggerManager.toYamlString ls
  | .getThis => Fiber.GetThis
  | .deleteFiber => Fiber.destroy
  | .schedule m => Scheduler.schedule m
  | .start m => Scheduler.start m
  | .addTimer m => TimerManager.addTimer m
  | .cancelTimer m => Timer.cancel m
  | .hasTimer m => TimerManager.getNextTimer m
  | .listExpiredCb m => TimerManager.listExpiredCb m
  | .addEvent m fd => IOManager.addEvent m fd
  | .delEvent m fd => IOManager.delEvent m fd
  | .cancelEvent m fd n => IOManager.cancelEvent m fd n
  | .cancelAll m fd n n' => IOManager.cancelAll m fd n n'
  | .getContext => FdManager.get
  | .delContext => FdManager.del
  | .descriptor => Awcotn.Locks.descriptor
  | .close m fd n n' => Awcotn.Locks.close m fd n n'

/-- The listeners of the library's own variables, and those of an application. -/
inductive Listener
  | logs (redefined : List Redefined)
  | tcpConnectTimeout
  | application (calls : List ListenerCall)

def Listener.locks : Listener → Usage
  | .logs redefined => Logger.log root * seq (redefined.map LogIniter.redefine)
  | .tcpConnectTimeout => Logger.log system
  | .application calls => seq (calls.map ListenerCall.locks)

/-- `ConfigVar::toString` -/
def ConfigVar.toString (v : ℕ) : Usage := block (.var v) .shared 1 * Logger.log root

/-- `ConfigVar::setValue` -/
def ConfigVar.setValue (v : ℕ) (listeners : List Listener) : Usage :=
  block (.var v) .shared (seq (listeners.map Listener.locks)) * (1 + block (.var v) .exclusive 1)

/-- `ConfigVar::fromString` -/
def ConfigVar.fromString (v : ℕ) (listeners : List Listener) : Usage := (1 + ConfigVar.setValue v listeners) * Logger.log root

/-- `ConfigVar::addListener`, `ConfigVar::delListerer`, `ConfigVar::clearListener` -/
def ConfigVar.addListener (v : ℕ) : Usage := block (.var v) .exclusive 1

/-- What a callback that an application passes to `Visit` may call: whatever does not search the registry and does not give up the thread. -/
inductive VisitCall
  | other (c : ListenerCall)
  | toString (v : ℕ)
  | getValue (v : ℕ)
  | setValue (v : ℕ) (listeners : List Listener)
  | fromString (v : ℕ) (listeners : List Listener)
  | addListener (v : ℕ)
  | newFiber

def VisitCall.locks : VisitCall → Usage
  | .other c => c.locks
  | .toString v => ConfigVar.toString v
  | .getValue v => ConfigVar.getValue v
  | .setValue v listeners => ConfigVar.setValue v listeners
  | .fromString v listeners => ConfigVar.fromString v listeners
  | .addListener v => ConfigVar.addListener v
  | .newFiber => Fiber.create

/-- `Config::Visit`, with what the callback calls for the variables. -/
def Config.Visit (calls : List VisitCall) : Usage := block .registry .shared (seq (calls.map VisitCall.locks))

/-- `Config::Lookup` with a default, where the name is that of the variable `v` if of any. -/
def Config.Lookup (v : ℕ) : Usage := block .registry .exclusive (1 + Logger.log root + ConfigVar.toString v * Logger.log root)

/-- `Config::LookupBase`, and `Config::Lookup` without a default. -/
def Config.LookupBase : Usage := block .registry .shared 1

/-- `Config::LoadFromYaml`, of a document that gives these variables. -/
def Config.LoadFromYaml (vars : List (ℕ × List Listener)) : Usage :=
  (Logger.log root).star * seq (vars.map fun v => Config.LookupBase * (1 + ConfigVar.fromString v.1 v.2))

/-! ### The whole -/

/-- `Scheduler::stop` up to the run of the caller's root fiber. -/
def Scheduler.stop (m : ℕ) : Usage :=
  Logger.log system * (1 + Logger.log system * (1 + IOManager.stopping m)) * assertion * tickle.star * (1 + IOManager.stopping m)
    * Fiber.switch

/-- `Scheduler::stop` from there. -/
def Scheduler.stopped (m : ℕ) : Usage := block (.scheduler m) .exclusive 1 * (Logger.log system).star

/-- What a thread can come to call, each call with what it meets. -/
inductive Call
  | other (c : VisitCall)
  | lookup (v : ℕ)
  | lookupBase
  | visit (calls : List VisitCall)
  | loadFromYaml (vars : List (ℕ × List Listener))
  | switch
  | enter
  | dequeue (m : ℕ)
  | settle (m : ℕ)
  | stop (m : ℕ)
  | stopped (m : ℕ)
  | idle (m : ℕ) (reported : List Reported)
  | wait (m fd : ℕ)
  | waited (m : ℕ)
  | sleep (m : ℕ)

def Call.locks : Call → Usage
  | .other c => c.locks
  | .lookup v => Config.Lookup v
  | .lookupBase => Config.LookupBase
  | .visit calls => Config.Visit calls
  | .loadFromYaml vars => Config.LoadFromYaml vars
  | .switch => Fiber.switch
  | .enter => Scheduler.enter
  | .dequeue m => Scheduler.dequeue m
  | .settle m => Scheduler.settle m
  | .stop m => Scheduler.stop m
  | .stopped m => Scheduler.stopped m
  | .idle m reported => IOManager.idle m reported
  | .wait m fd => Awcotn.Locks.wait m fd
  | .waited m => Awcotn.Locks.waited m
  | .sleep m => Awcotn.Locks.sleep m

end Awcotn.Locks
