import Awcotn.Foundation.Run
import Mathlib.Logic.Function.Basic

/-!
# Loggers and their appenders

`Logger` and `LogAppender` of `log.cc`. Both are shared objects, so they live on heaps, and formatters are pointers that may be null. An appender without a formatter of its own keeps a copy of its logger's, and `m_hasFormatter` tells the two apart.
-/

namespace Awcotn

/-- `LogLevel::Level`. -/
inductive LogLevel
  | UNKNOW
  | DEBUG
  | INFO
  | WARN
  | ERROR
  | FATAL
  deriving DecidableEq

/-- The number of a level. -/
def LogLevel.value : LogLevel → ℕ
  | .UNKNOW => 0
  | .DEBUG => 1
  | .INFO => 2
  | .WARN => 3
  | .ERROR => 4
  | .FATAL => 5

/-- `FileLogAppender` with its `m_filename`, or `StdoutLogAppender`. -/
inductive AppenderKind
  | file (filename : String)
  | stdout
  deriving DecidableEq

structure LogAppender (F : Type*) where
  kind : AppenderKind
  level : LogLevel
  hasFormatter : Bool
  formatter : Option F
  deriving DecidableEq

/-- A logger. Its level is a number, since the configuration also casts 100 to a level. -/
structure Logger (Ap F : Type*) where
  level : ℕ
  appenders : List Ap
  formatter : Option F
  deriving DecidableEq

/-- The loggers and the appenders at their addresses. -/
structure Logging (Lg Ap F : Type*) where
  logger : Lg → Logger Ap F
  appender : Ap → LogAppender F

variable {Lg Ap F : Type*} [DecidableEq Lg] [DecidableEq Ap]

/-- A constructed appender. -/
def LogAppender.new (kind : AppenderKind) : LogAppender F :=
  { kind := kind, level := .DEBUG, hasFormatter := false, formatter := none }

/-- A constructed logger, with the formatter its constructor makes. -/
def Logger.new (formatter : F) : Logger Ap F := { level := LogLevel.DEBUG.value, appenders := [], formatter := some formatter }

namespace Logging

/-- `LogAppender::setFormatter`. -/
def setAppenderFormatter (s : Logging Lg Ap F) (ap : Ap) (val : Option F) : Logging Lg Ap F :=
  { s with
    appender := Function.update s.appender ap { s.appender ap with formatter := val, hasFormatter := val.isSome } }

/-- The loop of `Logger::setFormatter` over the appenders. -/
def inherit (val : Option F) (appender : Ap → LogAppender F) (appenders : List Ap) : Ap → LogAppender F :=
  appenders.foldl (fun appender i =>
    if (appender i).hasFormatter then appender
    else Function.update appender i { appender i with formatter := val }) appender

/-- `Logger::setFormatter(LogFormatter::ptr)`. -/
def setFormatter (s : Logging Lg Ap F) (l : Lg) (val : Option F) : Logging Lg Ap F :=
  { logger := Function.update s.logger l { s.logger l with formatter := val }
    appender := inherit val s.appender (s.logger l).appenders }

/-- `Logger::setFormatter(const std::string&)`; an invalid pattern changes nothing. -/
def setFormatterString (new : String → F) (isError : F → Bool) (s : Logging Lg Ap F) (l : Lg) (val : String) :
    Logging Lg Ap F :=
  if isError (new val) then s else s.setFormatter l (some (new val))

def addAppender (s : Logging Lg Ap F) (l : Lg) (ap : Ap) : Logging Lg Ap F :=
  { logger := Function.update s.logger l { s.logger l with appenders := (s.logger l).appenders ++ [ap] }
    appender :=
      if (s.appender ap).formatter.isNone then
        Function.update s.appender ap { s.appender ap with formatter := (s.logger l).formatter }
      else s.appender }

def delAppender (s : Logging Lg Ap F) (l : Lg) (ap : Ap) : Logging Lg Ap F :=
  { s with logger := Function.update s.logger l { s.logger l with appenders := (s.logger l).appenders.erase ap } }

def clearAppenders (s : Logging Lg Ap F) (l : Lg) : Logging Lg Ap F :=
  { s with logger := Function.update s.logger l { s.logger l with appenders := [] } }

def setLevel (s : Logging Lg Ap F) (l : Lg) (level : ℕ) : Logging Lg Ap F :=
  { s with logger := Function.update s.logger l { s.logger l with level := level } }

/-- `LogAppender::setLevel`. -/
def setAppenderLevel (s : Logging Lg Ap F) (ap : Ap) (level : LogLevel) : Logging Lg Ap F :=
  { s with appender := Function.update s.appender ap { s.appender ap with level := level } }

/-! ### The operations, read back -/

omit [DecidableEq Lg] in
theorem inherit_apply (val : Option F) (appender : Ap → LogAppender F) (appenders : List Ap) (ap : Ap) :
    inherit val appender appenders ap =
      if ap ∈ appenders ∧ (appender ap).hasFormatter = false then { appender ap with formatter := val } else appender ap := by
  induction appenders generalizing appender with
  | nil => simp [inherit]
  | cons i appenders ih =>
      rw [inherit, List.foldl_cons]
      cases hown : (appender i).hasFormatter with
      | true =>
          rw [if_pos rfl]
          refine (ih appender).trans ?_
          by_cases hap : ap = i
          · simp [hap, hown]
          · simp [hap]
      | false =>
          rw [if_neg Bool.false_ne_true]
          refine (ih _).trans ?_
          by_cases hap : ap = i
          · simp [hap, hown]
          · simp [hap]

end Logging

/-! ### Runs -/

/-- Calls on any loggers and appenders. A formatter given to a logger is not null. -/
inductive LogAction (Lg Ap F : Type*)
  | setFormatter (l : Lg) (val : F)
  | setFormatterString (l : Lg) (val : String)
  | addAppender (l : Lg) (ap : Ap)
  | delAppender (l : Lg) (ap : Ap)
  | clearAppenders (l : Lg)
  | setAppenderFormatter (ap : Ap) (val : Option F)

/-- The objects with, for each appender, the logger it is attached to and the formatter last given to its own `setFormatter`. -/
structure Attached (Lg Ap F : Type*) where
  base : Logging Lg Ap F
  owner : Ap → Option Lg
  own : Ap → Option F

namespace Attached

open Transition

variable (new : String → F) (isError : F → Bool)

/-- An appender is attached to at most one logger at a time. -/
def step (s : Attached Lg Ap F) : LogAction Lg Ap F → Outcome Unit (Attached Lg Ap F)
  | .setFormatter l val => .next { s with base := s.base.setFormatter l (some val) }
  | .setFormatterString l val => .next { s with base := s.base.setFormatterString new isError l val }
  | .addAppender l ap =>
    if s.owner ap = none ∨ s.owner ap = some l then
      .next { s with base := s.base.addAppender l ap, owner := Function.update s.owner ap (some l) }
    else .disabled
  | .delAppender l ap =>
    .next { s with
      base := s.base.delAppender l ap
      owner := if s.owner ap = some l ∧ ap ∉ ((s.base.delAppender l ap).logger l).appenders then
          Function.update s.owner ap none else s.owner }
  | .clearAppenders l =>
    .next { s with base := s.base.clearAppenders l, owner := fun ap => if s.owner ap = some l then none else s.owner ap }
  | .setAppenderFormatter ap val =>
    .next { s with base := s.base.setAppenderFormatter ap val, own := Function.update s.own ap val }

/-- New loggers and new appenders, none of them attached. -/
def start (formatter : Lg → F) (kind : Ap → AppenderKind) : Attached Lg Ap F where
  base := { logger := fun l => Logger.new (formatter l), appender := fun ap => LogAppender.new (kind ap) }
  owner := fun _ => none
  own := fun _ => none

/-- Every attached appender has a formatter: the one given to it last, or else the present one of its logger. -/
def Follows (s : Attached Lg Ap F) : Prop :=
  ∀ l, ∀ ap ∈ (s.base.logger l).appenders, ∃ f, (s.base.appender ap).formatter = some f ∧
    some f = (s.own ap).or (s.base.logger l).formatter

/-- An attached appender's formatter is not reset, and an appender without a formatter of its own is attached with no formatter, or with the one its new logger has. -/
def Fresh (s : Attached Lg Ap F) : LogAction Lg Ap F → Prop
  | .setAppenderFormatter ap none => s.owner ap = none
  | .addAppender l ap => s.owner ap = none ∨ s.owner ap = some l → s.own ap = none →
    (s.base.appender ap).formatter = none ∨ (s.base.appender ap).formatter = (s.base.logger l).formatter
  | _ => True

/-! ### The invariant -/

/-- Loggers have formatters, an appender is in the list of its owner and no other, and what it was given last is what it has. -/
structure Inv (s : Attached Lg Ap F) : Prop where
  formatter : ∀ l, (s.base.logger l).formatter.isSome
  owner : ∀ l ap, ap ∈ (s.base.logger l).appenders ↔ s.owner ap = some l
  own : ∀ ap, (s.base.appender ap).hasFormatter = (s.own ap).isSome
  kept : ∀ ap f, s.own ap = some f → (s.base.appender ap).formatter = some f

omit [DecidableEq Lg] [DecidableEq Ap] in
theorem start_inv (formatter : Lg → F) (kind : Ap → AppenderKind) : (start formatter kind : Attached Lg Ap F).Inv where
  formatter := by simp [start, Logger.new]
  owner := by simp [start, Logger.new]
  own := by simp [start, LogAppender.new]
  kept := by simp [start]

theorem Inv.setFormatter {s : Attached Lg Ap F} (h : s.Inv) (l : Lg) (val : F) :
    Inv { s with base := s.base.setFormatter l (some val) } := by
  refine ⟨fun k => ?_, fun k ap => ?_, fun ap => ?_, fun ap f hf => ?_⟩
  · by_cases hk : k = l
    · simp [Logging.setFormatter, hk]
    · simpa [Logging.setFormatter, hk] using h.formatter k
  · rw [← h.owner k ap]
    by_cases hk : k = l <;> simp [Logging.setFormatter, hk]
  · rw [← h.own ap]
    simp only [Logging.setFormatter, Logging.inherit_apply]
    split_ifs <;> rfl
  · have hown : (s.base.appender ap).hasFormatter = true := by rw [h.own, show s.own ap = some f from hf]; rfl
    simpa [Logging.setFormatter, Logging.inherit_apply, hown] using h.kept ap f hf

theorem Inv.setFormatterString {s : Attached Lg Ap F} (h : s.Inv) (l : Lg) (val : String) :
    Inv { s with base := s.base.setFormatterString new isError l val } := by
  unfold Logging.setFormatterString
  split_ifs
  · exact h
  · exact h.setFormatter l (new val)

theorem Inv.addAppender {s : Attached Lg Ap F} (h : s.Inv) {l : Lg} {ap : Ap}
    (hfree : s.owner ap = none ∨ s.owner ap = some l) :
    Inv { s with base := s.base.addAppender l ap, owner := Function.update s.owner ap (some l) } := by
  refine ⟨fun k => ?_, fun k i => ?_, fun i => ?_, fun i f hf => ?_⟩
  · by_cases hk : k = l
    · simpa [Logging.addAppender, hk] using h.formatter l
    · simpa [Logging.addAppender, hk] using h.formatter k
  · have hbefore := h.owner k i
    by_cases hk : k = l <;> by_cases hi : i = ap
    · simp [Logging.addAppender, hk, hi]
    · simpa [Logging.addAppender, hk, hi] using hk ▸ hbefore
    · rw [hi] at hbefore
      have hnot : s.owner ap ≠ some k := by
        rcases hfree with hfree | hfree
        · simp [hfree]
        · simpa [hfree] using Ne.symm hk
      simpa [Logging.addAppender, hk, hi, Ne.symm hk] using mt hbefore.1 hnot
    · simpa [Logging.addAppender, hk, hi] using hbefore
  · rw [← h.own i]
    simp only [Logging.addAppender]
    split_ifs
    · by_cases hi : i = ap <;> simp [hi]
    · rfl
  · have hkept := h.kept i f hf
    simp only [Logging.addAppender]
    split_ifs with hnone
    · have hi : i ≠ ap := by
        rintro rfl
        simp [hkept] at hnone
      simpa [hi] using hkept
    · exact hkept

theorem Inv.delAppender {s : Attached Lg Ap F} (h : s.Inv) (l : Lg) (ap : Ap) :
    Inv { s with
      base := s.base.delAppender l ap
      owner := if s.owner ap = some l ∧ ap ∉ ((s.base.delAppender l ap).logger l).appenders then
          Function.update s.owner ap none else s.owner } := by
  refine ⟨fun k => ?_, fun k i => ?_, h.own, h.kept⟩
  · by_cases hk : k = l
    · simpa [Logging.delAppender, hk] using h.formatter l
    · simpa [Logging.delAppender, hk] using h.formatter k
  · have hbefore := h.owner k i
    have hother : i ≠ ap → (i ∈ ((s.base.delAppender l ap).logger k).appenders ↔ i ∈ (s.base.logger k).appenders) := by
      intro hi
      by_cases hk : k = l
      · simp [Logging.delAppender, hk, List.mem_erase_of_ne hi]
      · simp [Logging.delAppender, hk]
    have hlogger : k ≠ l → (s.base.delAppender l ap).logger k = s.base.logger k := by
      intro hk
      simp [Logging.delAppender, hk]
    have hfewer : ap ∈ ((s.base.delAppender l ap).logger l).appenders → s.owner ap = some l := by
      intro hin
      refine (h.owner l ap).1 ?_
      simpa [Logging.delAppender] using List.mem_of_mem_erase (by simpa [Logging.delAppender] using hin)
    dsimp only
    by_cases hi : i = ap
    · subst hi
      by_cases hk : k = l
      · subst hk
        split_ifs with hgone
        · simpa using hgone.2
        · grind
      · rw [hlogger hk, hbefore]
        split_ifs with hgone
        · simpa [hgone.1] using Ne.symm hk
        · rfl
    · rw [hother hi, hbefore]
      split_ifs
      · rw [Function.update_of_ne hi]
      · rfl

omit [DecidableEq Ap] in
theorem Inv.clearAppenders {s : Attached Lg Ap F} (h : s.Inv) (l : Lg) :
    Inv { s with
      base := s.base.clearAppenders l
      owner := fun ap => if s.owner ap = some l then none else s.owner ap } := by
  refine ⟨fun k => ?_, fun k i => ?_, h.own, h.kept⟩
  · by_cases hk : k = l
    · simpa [Logging.clearAppenders, hk] using h.formatter l
    · simpa [Logging.clearAppenders, hk] using h.formatter k
  · have hbefore := h.owner k i
    by_cases hk : k = l
    · subst hk
      simp [Logging.clearAppenders]
    · simp only [Logging.clearAppenders, Function.update_of_ne hk, hbefore]
      split_ifs with hl
      · simpa [hl] using Ne.symm hk
      · rfl

omit [DecidableEq Lg] in
theorem Inv.setAppenderFormatter {s : Attached Lg Ap F} (h : s.Inv) (ap : Ap) (val : Option F) :
    Inv { s with base := s.base.setAppenderFormatter ap val, own := Function.update s.own ap val } := by
  refine ⟨h.formatter, h.owner, fun i => ?_, fun i f hf => ?_⟩
  · by_cases hi : i = ap
    · simp [Logging.setAppenderFormatter, hi]
    · simpa [Logging.setAppenderFormatter, hi] using h.own i
  · by_cases hi : i = ap
    · simpa [Logging.setAppenderFormatter, hi] using hf
    · simpa [Logging.setAppenderFormatter, hi] using h.kept i f (by simpa [hi] using hf)

theorem step_inv (s : Attached Lg Ap F) (act : LogAction Lg Ap F) (s' : Attached Lg Ap F) (h : s.Inv)
    (hstep : step new isError s act = .next s') : s'.Inv := by
  cases act with
  | setFormatter l val =>
      cases hstep
      exact h.setFormatter l val
  | setFormatterString l val =>
      cases hstep
      exact h.setFormatterString new isError l val
  | addAppender l ap =>
      simp only [step] at hstep
      split_ifs at hstep with hfree
      cases hstep
      exact h.addAppender hfree
  | delAppender l ap =>
      cases hstep
      exact h.delAppender l ap
  | clearAppenders l =>
      cases hstep
      exact h.clearAppenders l
  | setAppenderFormatter ap val =>
      cases hstep
      exact h.setAppenderFormatter ap val

/-! ### The exact condition -/

omit [DecidableEq Lg] [DecidableEq Ap] in
/-- Attached appenders that are as they were, at loggers that are as they were. -/
theorem Follows.mono {s s' : Attached Lg Ap F} (h : s.Follows)
    (hsame : ∀ l, ∀ ap ∈ (s'.base.logger l).appenders, ap ∈ (s.base.logger l).appenders ∧
      s'.base.appender ap = s.base.appender ap ∧ s'.own ap = s.own ap ∧
      (s'.base.logger l).formatter = (s.base.logger l).formatter) : s'.Follows := by
  intro l ap hap
  obtain ⟨hin, happender, hown, hlogger⟩ := hsame l ap hap
  rw [happender, hown, hlogger]
  exact h l ap hin

theorem Follows.setFormatter {s : Attached Lg Ap F} (h : s.Inv) (hfollows : s.Follows) (l : Lg) (val : F) :
    Follows { s with base := s.base.setFormatter l (some val) } := by
  intro k ap hap
  by_cases hk : k = l
  · subst hk
    have hin : ap ∈ (s.base.logger k).appenders := by simpa [Logging.setFormatter] using hap
    simp only [Logging.setFormatter, Logging.inherit_apply, Function.update_self, hin, true_and]
    cases hown : s.own ap with
    | none => simp [h.own, hown]
    | some f => simp [h.own, hown, h.kept ap f hown]
  · have hin : ap ∈ (s.base.logger k).appenders := by simpa [Logging.setFormatter, hk] using hap
    have hout : ap ∉ (s.base.logger l).appenders := by
      rw [h.owner, (h.owner k ap).1 hin]
      simpa using hk
    simpa [Logging.setFormatter, Logging.inherit_apply, hk, hout] using hfollows k ap hin

theorem follows_addAppender_iff {s : Attached Lg Ap F} (h : s.Inv) (hfollows : s.Follows) {l : Lg} {ap : Ap}
    (hfree : s.owner ap = none ∨ s.owner ap = some l) :
    Follows { s with base := s.base.addAppender l ap, owner := Function.update s.owner ap (some l) } ↔
      s.Fresh (.addAppender l ap) := by
  obtain ⟨g, hg⟩ := Option.isSome_iff_exists.1 (h.formatter l)
  have hself : (s.base.addAppender l ap).appender ap = { s.base.appender ap with
      formatter := (s.base.appender ap).formatter.or (s.base.logger l).formatter } := by
    cases hformatter : (s.base.appender ap).formatter with
    | none => simp [Logging.addAppender, hformatter]
    | some f =>
        simp only [Logging.addAppender, hformatter, Option.isNone_some, Bool.false_eq_true, if_false, Option.some_or]
        rw [← hformatter]
  have hother : ∀ i, i ≠ ap → (s.base.addAppender l ap).appender i = s.base.appender i := by
    intro i hi
    simp only [Logging.addAppender]
    split_ifs
    · exact Function.update_of_ne hi _ _
    · rfl
  have hlogger : ∀ k, ((s.base.addAppender l ap).logger k).formatter = (s.base.logger k).formatter := by
    intro k
    by_cases hk : k = l <;> simp [Logging.addAppender, hk]
  constructor
  · intro hall _ hown
    obtain ⟨f, hf, heq⟩ := hall l ap (by simp [Logging.addAppender])
    simp only [hself, hlogger, hown, Option.none_or] at hf heq
    cases hformatter : (s.base.appender ap).formatter with
    | none => exact .inl rfl
    | some e =>
        rw [hformatter, Option.some_or] at hf
        exact .inr (hf.trans heq)
  · intro hfresh k i hi
    by_cases hia : i = ap
    · subst hia
      have hk : k = l := by
        by_contra hk
        have hin : i ∈ (s.base.logger k).appenders := by simpa [Logging.addAppender, hk] using hi
        rw [h.owner] at hin
        simp [hin, hk] at hfree
      subst hk
      simp only [hself, hlogger]
      cases hown : s.own i with
      | some f => exact ⟨f, by simp [h.kept i f hown], rfl⟩
      | none =>
          rcases hfresh hfree hown with hnone | hsame
          · exact ⟨g, by simp [hnone, hg], by simp [hg]⟩
          · exact ⟨g, by simp [hsame, hg], by simp [hg]⟩
    · have hin : i ∈ (s.base.logger k).appenders := by
        by_cases hk : k = l
        · simpa [Logging.addAppender, hk, hia] using hi
        · simpa [Logging.addAppender, hk] using hi
      simpa [hother i hia, hlogger] using hfollows k i hin

theorem step_follows_iff {s s' : Attached Lg Ap F} {act : LogAction Lg Ap F} (h : s.Inv) (hfollows : s.Follows)
    (hstep : step new isError s act = .next s') : s'.Follows ↔ s.Fresh act := by
  cases act with
  | setFormatter l val =>
      cases hstep
      exact iff_of_true (hfollows.setFormatter h l val) trivial
  | setFormatterString l val =>
      cases hstep
      refine iff_of_true ?_ trivial
      unfold Logging.setFormatterString
      split_ifs
      · exact hfollows
      · exact hfollows.setFormatter h l (new val)
  | addAppender l ap =>
      simp only [step] at hstep
      split_ifs at hstep with hfree
      cases hstep
      exact follows_addAppender_iff h hfollows hfree
  | delAppender l ap =>
      cases hstep
      refine iff_of_true (hfollows.mono fun k i hi => ?_) trivial
      by_cases hk : k = l
      · subst hk
        exact ⟨List.mem_of_mem_erase (by simpa [Logging.delAppender] using hi), rfl, rfl, by simp [Logging.delAppender]⟩
      · exact ⟨by simpa [Logging.delAppender, hk] using hi, rfl, rfl, by simp [Logging.delAppender, hk]⟩
  | clearAppenders l =>
      cases hstep
      refine iff_of_true (hfollows.mono fun k i hi => ?_) trivial
      by_cases hk : k = l
      · simp [Logging.clearAppenders, hk] at hi
      · exact ⟨by simpa [Logging.clearAppenders, hk] using hi, rfl, rfl, by simp [Logging.clearAppenders, hk]⟩
  | setAppenderFormatter ap val =>
      cases hstep
      cases val with
      | some f =>
          refine iff_of_true (fun l i hi => ?_) trivial
          by_cases hia : i = ap
          · exact ⟨f, by simp [Logging.setAppenderFormatter, hia], by simp [hia]⟩
          · simpa [Logging.setAppenderFormatter, hia] using hfollows l i hi
      | none =>
          constructor
          · intro hall
            show s.owner ap = none
            by_contra howned
            obtain ⟨l, hl⟩ := Option.ne_none_iff_exists'.1 howned
            obtain ⟨f, hf, -⟩ := hall l ap ((h.owner l ap).2 hl)
            simp [Logging.setAppenderFormatter] at hf
          · intro hfree l i hi
            have hia : i ≠ ap := by
              rintro rfl
              simpa [show s.owner i = none from hfree] using (h.owner l i).1 hi
            simpa [Logging.setAppenderFormatter, hia] using hfollows l i hi

theorem stuck_fresh {s : Attached Lg Ap F} {act : LogAction Lg Ap F} (hstuck : ∀ s', step new isError s act ≠ .next s') :
    s.Fresh act := by
  cases act with
  | addAppender l ap =>
      intro hfree
      simp only [step, if_pos hfree] at hstuck
      exact absurd rfl (hstuck _)
  | setFormatter l val => trivial
  | setFormatterString l val => trivial
  | delAppender l ap => trivial
  | clearAppenders l => trivial
  | setAppenderFormatter ap val => exact absurd rfl (hstuck _)

/-- Every attached appender has its own formatter or its logger's in every state exactly as long as no attached appender's formatter is reset and no appender brings along the formatter of another logger. -/
theorem appenders_follow_iff (formatter : Lg → F) (kind : Ap → AppenderKind) (acts : List (LogAction Lg Ap F)) :
    Throughout (step new isError) Follows (start formatter kind) acts ↔
      Along (step new isError) Fresh (start formatter kind) acts :=
  throughout_iff_along (step_inv new isError) (fun _ _ _ h hfollows hstep => step_follows_iff new isError h hfollows hstep)
    (fun _ _ _ hstuck => stuck_fresh new isError hstuck) (start_inv formatter kind) (by simp [Follows, start, Logger.new]) acts

/-- An appender moved from logger 0 to logger 1 keeps the formatter of logger 0, and an attached appender whose own formatter is reset has none. -/
theorem appender_left_behind :
    (∃ s : Attached ℕ ℕ ℕ, Transition.run (step (fun _ => 9) fun _ => false) (start id fun _ => .stdout)
        [.addAppender 0 0, .delAppender 0 0, .addAppender 1 0] = .next s ∧
      0 ∈ (s.base.logger 1).appenders ∧ s.own 0 = none ∧ (s.base.logger 1).formatter = some 1 ∧
      (s.base.appender 0).formatter = some 0) ∧
    ∃ s : Attached ℕ ℕ ℕ, Transition.run (step (fun _ => 9) fun _ => false) (start id fun _ => .stdout)
        [.addAppender 0 0, .setAppenderFormatter 0 (some 5), .setAppenderFormatter 0 none] = .next s ∧
      0 ∈ (s.base.logger 0).appenders ∧ (s.base.appender 0).formatter = none :=
  ⟨⟨_, rfl, by decide, by decide, by decide, by decide⟩, _, rfl, by decide, by decide⟩

end Attached

end Awcotn
