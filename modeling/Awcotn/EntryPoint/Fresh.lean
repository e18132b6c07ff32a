import Awcotn.EntryPoint.Steps

/-!
# Fresh contexts

A program's threads call the hooked functions, some with hooks on and some without, and descriptor numbers are reused. `socket` and `accept` ask `FdManager` for a context of the number the kernel returned, and get whatever is stored there.

`orphaned` follows the numbers that a thread without hooks has closed while they had a context, and that no thread with hooks has closed since. These are the free numbers that still have one, so the context of a new descriptor is fresh unless its number is orphaned or `FdCtx::init` fails.
-/

namespace Awcotn.EntryPoint

open Transition

variable {R : Type*}

/-! ### Runs -/

/-- Every call but those that transfer data, connect or sleep. -/
def Call.ordersTable : Call R → Bool
  | .connect .. | .io .. | .sleep .. | .usleep .. | .nanosleep .. => false
  | _ => true

/-- A call that is about descriptors themselves: it makes, ends, duplicates or configures one. -/
abbrev TableCall (R : Type*) := {c : Call R // c.ordersTable = true}

/-- The program, and which numbers are orphaned. -/
structure Traced (R : Type*) where
  state : State R
  orphaned : ℕ → Bool

namespace Traced

def tracked (s : State R) (n : ℕ) : Bool := (s.fdMgr.get n).isSome

/-- `orphaned` after a call that has led to `t`. -/
def orphans (s : Traced R) (enabled : Bool) (t : State R) : Call R → ℕ → Bool
  | .close fd _ _, n =>
    if fd = n then !enabled && (s.orphaned n || tracked s.state n && (t.kernel.fds n).isNone) else s.orphaned n
  | _, n => s.orphaned n

theorem orphans_close (s : Traced R) (enabled : Bool) (t : State R) (fd : ℤ) (freed : Bool) (v : Verdict) (n : ℕ) :
    s.orphans enabled t (.close fd freed v) n =
      if fd = n then !enabled && (s.orphaned n || tracked s.state n && (t.kernel.fds n).isNone) else s.orphaned n := rfl

def step (raw : RawCalls R) (s : Traced R) (a : Bool × TableCall R) : Outcome Crash (Traced R) :=
  match a.2.val.hooked raw a.1 s.state with
  | .next (_, t) => .next ⟨t, s.orphans a.1 t a.2.val⟩
  | .abort e => .abort e
  | .disabled => .disabled

def start (k : Kernel R) : Traced R := ⟨EntryPoint.start k, fun _ => false⟩

end Traced

/-! ### The property and the condition -/

/-- The descriptor is in non-blocking mode. -/
def Kernel.isNonblock (k : Kernel R) (fd : ℤ) : Prop := ∃ file, k.file? fd = some file ∧ file.flags.nonblock = true

def Call.isOpening : Call R → Bool
  | .socket .. | .accept .. => true
  | _ => false

/-- Where `socket` or `accept` returns a descriptor on a thread with hooks, its context is as `FdCtx` constructs it for a socket, and the descriptor is in non-blocking mode. -/
def FreshOnReturn (raw : RawCalls R) (s : Traced R) (a : Bool × TableCall R) : Prop :=
  ∀ ret t, a.2.val.hooked raw a.1 s.state = .next (ret, t) → a.1 = true → a.2.val.isOpening = true → 0 ≤ ret.value →
    t.fdMgr.get ret.value.toNat = some (.new (some true)) ∧ t.kernel.isNonblock ret.value

/-- The new number `fd` is not orphaned, and `FdCtx::init` recognises the socket and finds or puts it in non-blocking mode; or the orphan looks like new and non-blocking mode was asked for. -/
def Fresh (s : Traced R) (fd : ℕ) (nonblock : Bool) (p : Probe) : Prop :=
  if s.orphaned fd then s.state.fdMgr.get fd = some (.new (some true)) ∧ nonblock = true
  else p.fstat = .allow ∧ (nonblock = true ∨ p.getfl = .allow ∧ p.setfl = .allow)

/-- The condition on a call that opens a descriptor with hooks on. The kernel performs it, and the number it picks is free. -/
def KeepsFresh (s : Traced R) (a : Bool × TableCall R) : Prop :=
  a.1 = true →
    match a.2.val with
    | .socket type fd .allow p => s.state.kernel.fds fd = none → Fresh s fd type.nonblock p
    | .accept sockfd fd .allow p =>
      s.state.kernel.fileOf sockfd ≠ none → s.state.kernel.fds fd = none → Fresh s fd false p
    | _ => True

/-! ### Calls that end no descriptor -/

namespace State

/-- What a call does to the table of descriptors and the contexts where it ends no descriptor. -/
structure Gains (s t : State R) : Prop where
  sized : s.fdMgr.datas.length ≤ t.fdMgr.datas.length
  opened : (∀ n ctx, s.fdMgr.get n = some ctx → ctx.isClosed = false) →
    ∀ n ctx, t.fdMgr.get n = some ctx → ctx.isClosed = false
  fds : ∀ n, t.kernel.fds n = none → s.kernel.fds n = none
  keeps : ∀ n, Traced.tracked s n = true → Traced.tracked t n = true
  adds : ∀ n, Traced.tracked t n = true → Traced.tracked s n = true ∨ t.kernel.fds n ≠ none

theorem Gains.trans {s t u : State R} (h : s.Gains t) (h' : t.Gains u) : s.Gains u where
  sized := h.sized.trans h'.sized
  opened := fun hs => h'.opened (h.opened hs)
  fds := fun n hn => h.fds n (h'.fds n hn)
  keeps := fun n hn => h'.keeps n (h.keeps n hn)
  adds := by
    intro n hn
    obtain ht | hu := h'.adds n hn
    · exact (h.adds n ht).imp_right fun hne hnone => hne (h'.fds n hnone)
    · exact Or.inr hu

/-- The kernel moves on and opens descriptors at most. -/
theorem gains_kernel (s : State R) {k : Kernel R} (h : ∀ n, k.fds n = none → s.kernel.fds n = none) :
    s.Gains { s with kernel := k } where
  sized := Nat.le_refl _
  opened := id
  fds := h
  keeps := fun _ => id
  adds := fun _ => Or.inl

theorem gains_setCtx {s : State R} {fd : ℤ} {ctx : FdCtx} (hget : s.fdMgr.get fd.toNat ≠ none)
    (hopen : ctx.isClosed = false) : s.Gains (s.setCtx fd ctx) := by
  have hset := FdManager.get_set hget ctx
  have htracked : ∀ n, Traced.tracked (s.setCtx fd ctx) n = Traced.tracked s n := by
    intro n
    rw [Traced.tracked, Traced.tracked, setCtx, hset]
    split
    · next heq =>
        subst heq
        simpa [Option.isSome_iff_ne_none] using hget
    · rfl
  refine ⟨by simp [setCtx], ?_, fun _ => id, fun n hn => (htracked n).trans hn, fun n hn => Or.inl ((htracked n).symm.trans hn)⟩
  intro hs n ctx' hn
  rw [setCtx, hset] at hn
  split at hn
  · obtain rfl : ctx = ctx' := by simpa using hn
    exact hopen
  · exact hs n ctx' hn

/-- A context is written to, and a raw call follows. -/
theorem gains_configured {s : State R} {fd : ℤ} {c ctx : FdCtx} {k : Kernel R} (hget : s.fdMgr.get fd.toNat = some c)
    (hopen : ctx.isClosed = false) (hk : k.fds = s.kernel.fds) : s.Gains { s.setCtx fd ctx with kernel := k } :=
  have hne : s.fdMgr.get fd.toNat ≠ none := by simp [hget]
  (gains_setCtx hne hopen).trans ((s.setCtx fd ctx).gains_kernel fun n hn => by rwa [hk] at hn)

/-- `FdManager::get` with `auto_create` for an open descriptor. -/
theorem gains_getAutoCreate {s : State R} (hsized : 2 ≤ s.fdMgr.datas.length) {fd : ℕ} (hopen : s.kernel.fds fd ≠ none)
    (p : Probe) : s.Gains (getAutoCreate s fd p) := by
  unfold getAutoCreate
  cases hctx : s.fdMgr.get fd with
  | some ctx => exact s.gains_kernel fun _ => id
  | none =>
      have hcreate := FdManager.get_create hsized fd (fstat s.kernel fd p.fstat)
      refine ⟨FdManager.length_le_create fd _, ?_, ?_, ?_, ?_⟩
      · intro hs n ctx hn
        rw [hcreate] at hn
        split at hn
        · obtain rfl : FdCtx.new _ = ctx := by simpa using hn
          rfl
        · exact hs n ctx hn
      · intro n hn
        rwa [initKernel_fds] at hn
      · intro n hn
        rw [Traced.tracked, hcreate]
        split
        · rfl
        · exact hn
      · intro n hn
        rw [Traced.tracked, hcreate] at hn
        split at hn
        · next heq =>
            subst heq
            exact Or.inr (by rwa [initKernel_fds])
        · exact Or.inl hn

end State

/-! ### A step -/

variable {raw : RawCalls R}

section

variable {s t : State R} {enabled : Bool} {ret : Ret}

/-- `socket` and `accept` give the number they return a context, and nothing else happens to the table. -/
theorem gains_opened (hsized : 2 ≤ s.fdMgr.datas.length) (fd : ℕ) (file : File) (p : Probe) :
    s.Gains (getAutoCreate { s with kernel := s.kernel.install fd file } fd p) :=
  (s.gains_kernel fun _ => install_fds_none).trans
    (State.gains_getAutoCreate (s := { s with kernel := s.kernel.install fd file }) hsized (by simp [install_fds]) p)

/-- Every call but `close` ends no descriptor and drops no context. -/
theorem hooked_gains (hsized : 2 ≤ s.fdMgr.datas.length) (hopened : ∀ n ctx, s.fdMgr.get n = some ctx → ctx.isClosed = false)
    {c : Call R} (htable : c.ordersTable = true) (hclose : ∀ fd freed v, c ≠ .close fd freed v)
    (h : c.hooked raw enabled s = .next (ret, t)) : s.Gains t := by
  cases c with
  | connect | io | sleep | usleep | nanosleep => cases htable
  | close fd freed v => exact absurd rfl (hclose fd freed v)
  | socket type fd v p =>
      obtain ⟨e, _, _, rfl⟩ | ⟨_, _, _, file, _, rfl⟩ := socket_eq_next h
      · exact t.gains_kernel fun _ => id
      · split
        · exact gains_opened hsized fd file p
        · exact s.gains_kernel fun _ => install_fds_none
  | accept sockfd fd v p =>
      obtain ⟨e, _, rfl, _⟩ | ⟨_, _, _, _, rfl⟩ := accept_eq_next h
      · exact t.gains_kernel fun _ => id
      · exact gains_opened hsized fd _ p
  | setfl fd arg v =>
      obtain ⟨_, ⟨_, _, rfl⟩ | ⟨c, hget, hopen, _, _, rfl⟩⟩ := setfl_eq_next h
      · exact s.gains_kernel fun n hn => by rwa [(setfl_f_retags _ _ _).fds] at hn
      · exact State.gains_configured hget hopen (setfl_f_retags _ _ _).fds
  | getfl fd v =>
      obtain rfl := getfl_eq_next h
      exact t.gains_kernel fun _ => id
  | dupfd fd arg fd' v =>
      obtain ⟨k, hraw, rfl⟩ := pass?_eq_next h
      obtain rfl | ⟨n, id, hid, rfl⟩ := dupfd_f_eq_some hraw
      · exact s.gains_kernel fun _ => id
      · exact s.gains_kernel fun _ => share_fds_none hid
  | fcntl fd cmd =>
      obtain ⟨_, rfl⟩ := pass_eq_next h
      exact s.gains_kernel fun _ => id
  | fionbio d arg v =>
      obtain ⟨_, n, rfl, _, ⟨_, rfl⟩ | ⟨c, hget, hopen, _, rfl⟩⟩ := fionbio_eq_next h
      · exact s.gains_kernel fun n hn => by rwa [(fionbio_f_retags _ _ _).fds] at hn
      · exact State.gains_configured hget hopen (fionbio_f_retags _ _ _).fds
  | ioctl d request arg =>
      obtain ⟨_, rfl⟩ := pass_eq_next h
      exact s.gains_kernel fun _ => id
  | getsockopt sockfd level optname =>
      obtain ⟨_, rfl⟩ := pass_eq_next h
      exact s.gains_kernel fun _ => id
  | setsockopt sockfd opt =>
      obtain ⟨_, rfl, rfl | ⟨c, type, ms, hget, rfl⟩⟩ := setsockopt_eq_next h
      · exact s.gains_kernel fun _ => id
      · have hopen : (c.setTimeout type ms).isClosed = false := by
          cases type <;> exact hopened _ c hget
        exact State.gains_configured hget hopen rfl

end

/-! ### The invariant -/

/-- A free number has a context only if it is orphaned. -/
structure FreshInv (s : Traced R) : Prop where
  sized : 2 ≤ s.state.fdMgr.datas.length
  opened : ∀ n ctx, s.state.fdMgr.get n = some ctx → ctx.isClosed = false
  tracked_of_orphaned : ∀ n, s.orphaned n = true → Traced.tracked s.state n = true
  orphaned_of_free : ∀ n, s.state.kernel.fds n = none → Traced.tracked s.state n = true → s.orphaned n = true

theorem freshInv_start (k : Kernel R) : FreshInv (Traced.start k) where
  sized := by simp [Traced.start, EntryPoint.start, FdManager.init]
  opened := by
    intro n ctx h
    rw [Traced.start, EntryPoint.start, FdManager.get_init] at h
    cases h
  tracked_of_orphaned := nofun
  orphaned_of_free := by
    intro n _ h
    simp [Traced.tracked, Traced.start, EntryPoint.start, FdManager.get_init] at h

variable {s t : Traced R}

/-- Calls that end no descriptor keep the invariant, since `orphaned` stays. -/
theorem FreshInv.gains (hs : FreshInv s) {u : State R} (h : s.state.Gains u) : FreshInv ⟨u, s.orphaned⟩ where
  sized := hs.sized.trans h.sized
  opened := h.opened hs.opened
  tracked_of_orphaned := fun n hn => h.keeps n (hs.tracked_of_orphaned n hn)
  orphaned_of_free := by
    intro n hfree hn
    obtain hold | hne := h.adds n hn
    · exact hs.orphaned_of_free n (h.fds n hfree) hold
    · exact absurd hfree hne

/-- `close` drops the context of its number where hooks are on, and orphans it where they are off. -/
theorem FreshInv.close (hs : FreshInv s) {enabled : Bool} {fd : ℤ} {freed : Bool} {v : Verdict} {u : State R} {ret : Ret}
    (h : EntryPoint.close enabled s.state fd freed v = .next (ret, u)) :
    FreshInv ⟨u, s.orphans enabled u (.close fd freed v)⟩ := by
  obtain ⟨hkernel, hlength, hget⟩ := close_eq_next h
  have hfds : ∀ n : ℕ, fd ≠ n → u.kernel.fds n = s.state.kernel.fds n := by
    intro n hn
    rw [hkernel]
    exact close_f_fds_of_ne hn.symm freed v
  have htracked : ∀ n : ℕ, Traced.tracked u n = if enabled ∧ fd = n then false else Traced.tracked s.state n := by
    intro n
    rw [Traced.tracked, hget]
    split
    · rfl
    · rfl
  refine ⟨by simpa only [hlength] using hs.sized, ?_, ?_, ?_⟩
  · intro n ctx hn
    simp only [hget] at hn
    split at hn
    · cases hn
    · exact hs.opened n ctx hn
  · intro n hn
    simp only [Traced.orphans_close] at hn
    simp only [htracked]
    by_cases heq : fd = n
    · cases enabled with
      | true => simp [heq] at hn
      | false =>
          rw [if_pos heq] at hn
          obtain hold | ⟨htr, _⟩ : s.orphaned n = true ∨ Traced.tracked s.state n = true ∧ u.kernel.fds n = none := by
            simpa using hn
          · simpa using hs.tracked_of_orphaned n hold
          · simpa using htr
    · rw [if_neg heq] at hn
      simpa [heq] using hs.tracked_of_orphaned n hn
  · intro n hfree hn
    simp only [htracked] at hn
    simp only [Traced.orphans_close]
    by_cases heq : fd = n
    · cases enabled with
      | true => simp [heq] at hn
      | false =>
          have htr : Traced.tracked s.state n = true := by simpa using hn
          simp only at hfree
          simp [heq, htr, hfree]
    · have htr : Traced.tracked s.state n = true := by simpa [heq] using hn
      rw [if_neg heq]
      exact hs.orphaned_of_free n ((hfds n heq).symm.trans hfree) htr

theorem step_freshInv {a : Bool × TableCall R} (hs : FreshInv s) (h : Traced.step raw s a = .next t) : FreshInv t := by
  obtain ⟨enabled, c, htable⟩ := a
  unfold Traced.step at h
  split at h
  · next ret u hcall =>
      obtain rfl : ⟨u, s.orphans enabled u c⟩ = t := by simpa using h
      by_cases hclose : ∃ fd freed v, c = .close fd freed v
      · obtain ⟨fd, freed, v, rfl⟩ := hclose
        exact hs.close hcall
      · have hne : ∀ fd freed v, c ≠ .close fd freed v := fun fd freed v heq => hclose ⟨fd, freed, v, heq⟩
        have hsame : s.orphans enabled u c = s.orphaned := by
          cases c with
          | close fd freed v => exact absurd rfl (hne fd freed v)
          | _ => rfl
        rw [hsame]
        exact hs.gains (hooked_gains hs.sized hs.opened htable hne hcall)
  · cases h
  · cases h

/-! ### Exactness -/

theorem isNonblock_iff {k : Kernel R} {fd : ℤ} {file : File} (h : k.file? fd = some file) :
    k.isNonblock fd ↔ file.flags.nonblock = true := by
  rw [Kernel.isNonblock, h]
  simp

/-- The context and the mode of a new descriptor after `FdManager::get` with `auto_create`. -/
theorem fresh_getAutoCreate_iff (hs : FreshInv s) {fd : ℕ} (hfree : s.state.kernel.fds fd = none) (flags : Flags) (p : Probe)
    {u : State R} (hu : u = getAutoCreate { s.state with kernel := s.state.kernel.install fd ⟨true, flags⟩ } fd p) :
    (u.fdMgr.get fd = some (.new (some true)) ∧ u.kernel.isNonblock fd) ↔ Fresh s fd flags.nonblock p := by
  subst hu
  cases hctx : s.state.fdMgr.get fd with
  | some ctx =>
      have horphan : s.orphaned fd = true := hs.orphaned_of_free fd hfree (by simp [Traced.tracked, hctx])
      simp only [getAutoCreate, hctx, Fresh, horphan, if_true, isNonblock_iff (file?_install s.state.kernel fd _)]
  | none =>
      have hnot : ¬ s.orphaned fd = true := by
        intro horphan
        simpa [Traced.tracked, hctx] using hs.tracked_of_orphaned fd horphan
      obtain ⟨f, hfile, hblock⟩ := file?_initKernel s.state.kernel fd flags p
      have hnew : (FdCtx.new (if p.fstat = .allow then some true else none) = .new (some true)) ↔ p.fstat = .allow := by
        split
        · next h => simp [h]
        · next h =>
            simp only [h, iff_false]
            decide
      simp only [getAutoCreate, hctx, Fresh, if_neg hnot, isNonblock_iff hfile, hblock, fstat_install,
        FdManager.get_create hs.sized, if_true, Option.some.injEq, hnew, Bool.or_eq_true, decide_eq_true_eq]
      obtain ⟨fstatV, getflV, setflV⟩ := p
      constructor
      · rintro ⟨hstat, hnon | hall⟩
        · exact ⟨hstat, Or.inl hnon⟩
        · obtain ⟨_, hgetfl, hsetfl⟩ := Probe.mk.inj hall
          exact ⟨hstat, Or.inr ⟨hgetfl, hsetfl⟩⟩
      · rintro ⟨hstat, hnon | ⟨hgetfl, hsetfl⟩⟩
        · exact ⟨hstat, Or.inl hnon⟩
        · exact ⟨hstat, Or.inr (by simp_all)⟩

theorem freshOnReturn_socket (hs : FreshInv s) (type : Flags) (fd : ℕ) (v : Verdict) (p : Probe)
    (htable : (Call.socket type fd v p : Call R).ordersTable = true) :
    FreshOnReturn raw s (true, ⟨.socket type fd v p, htable⟩) ↔ KeepsFresh s (true, ⟨.socket type fd v p, htable⟩) := by
  have hblock : (O_RDWR.setNonblock type.nonblock).nonblock = type.nonblock := Flags.nonblock_setNonblock _ _
  constructor
  · intro h _
    cases v with
    | refuse e => trivial
    | allow =>
        intro hfree
        have hfresh := h _ _ (socket_allow hfree p) rfl rfl (Int.natCast_nonneg fd)
        exact hblock ▸ (fresh_getAutoCreate_iff hs hfree _ p rfl).1 hfresh
  · intro h ret u hcall _ _ hret
    obtain ⟨e, _, rfl, _⟩ | ⟨rfl, hfree, rfl, file, rfl, hu⟩ := socket_eq_next hcall
    · exact absurd hret (by simp [Ret.fail])
    · refine (fresh_getAutoCreate_iff hs hfree _ p hu).2 ?_
      rw [hblock]
      exact h rfl hfree

theorem freshOnReturn_accept (hs : FreshInv s) (sockfd : ℤ) (fd : ℕ) (v : Verdict) (p : Probe)
    (htable : (Call.accept sockfd fd v p : Call R).ordersTable = true) :
    FreshOnReturn raw s (true, ⟨.accept sockfd fd v p, htable⟩) ↔ KeepsFresh s (true, ⟨.accept sockfd fd v p, htable⟩) := by
  have hblock : O_RDWR.nonblock = false := by decide
  constructor
  · intro h _
    cases v with
    | refuse e => trivial
    | allow =>
        intro hopen hfree
        have hfresh := h _ _ (accept_allow hopen hfree hs.opened p) rfl rfl (Int.natCast_nonneg fd)
        exact hblock ▸ (fresh_getAutoCreate_iff hs hfree _ p rfl).1 hfresh
  · intro h ret u hcall _ _ hret
    obtain ⟨e, rfl, _⟩ | ⟨rfl, hopen, hfree, rfl, hu⟩ := accept_eq_next hcall
    · exact absurd hret (by simp [Ret.fail])
    · refine (fresh_getAutoCreate_iff hs hfree _ p hu).2 ?_
      rw [hblock]
      exact h rfl hopen hfree

theorem freshOnReturn_iff (hs : FreshInv s) (a : Bool × TableCall R) : FreshOnReturn raw s a ↔ KeepsFresh s a := by
  obtain ⟨enabled, c, htable⟩ := a
  cases enabled with
  | false => simp [FreshOnReturn, KeepsFresh]
  | true =>
      cases c with
      | socket type fd v p => exact freshOnReturn_socket hs type fd v p htable
      | accept sockfd fd v p => exact freshOnReturn_accept hs sockfd fd v p htable
      | _ => simp [FreshOnReturn, KeepsFresh, Call.isOpening]

/-- In every run, every `socket` and `accept` that returns a descriptor on a thread with hooks returns it fresh exactly where the condition is met. -/
theorem fresh_iff_keepsFresh (raw : RawCalls R) (k : Kernel R) (calls : List (Bool × TableCall R)) :
    Along (Traced.step raw) (FreshOnReturn raw) (.start k) calls ↔ Along (Traced.step raw) KeepsFresh (.start k) calls :=
  along_congr (fun _ _ _ hs h => step_freshInv hs h) (fun _ a hs => freshOnReturn_iff hs a) (freshInv_start k) calls

/-- A thread with hooks opens a socket and sets its receive timeout, a thread without closes it, and a thread with hooks opens the next one under the same number. -/
def reused : List (Bool × TableCall Unit) :=
  [(true, ⟨.socket 1 4 .allow ⟨.allow, .allow, .allow⟩, rfl⟩),
    (true, ⟨.setsockopt 4 (.timeout .SO_RCVTIMEO ⟨5, 0⟩), rfl⟩),
    (false, ⟨.close 4 true .allow, rfl⟩),
    (true, ⟨.socket 1 4 .allow ⟨.allow, .allow, .allow⟩, rfl⟩)]

/-- The second socket has the first one's context, with its timeout, and is in blocking mode. -/
theorem stale_context_returned : ¬ Along (Traced.step idleCalls) (FreshOnReturn idleCalls) (.start nothingOpen) reused := by
  rintro ⟨_, _, _, h, _⟩
  obtain ⟨hctx, _⟩ := h _ _ rfl rfl rfl (by decide)
  exact absurd hctx (by decide)

end Awcotn.EntryPoint
