import Awcotn.EntryPoint.Functions

/-!
# What a call comes to

One lemma for each hooked function that a claim about descriptors follows through: from a result, which of its branches was taken and what it leaves.
-/

namespace Awcotn.EntryPoint

open Transition

variable {R : Type*}

variable {s t : State R} {enabled : Bool} {ret : Ret}

theorem pass_eq_next {r : Ret × Kernel R} (h : s.pass r = .next (ret, t)) : ret = r.1 ∧ t = { s with kernel := r.2 } := by
  obtain ⟨rfl, rfl⟩ : r.1 = ret ∧ { s with kernel := r.2 } = t := by simpa [State.pass, State.withKernel] using h
  exact ⟨rfl, rfl⟩

theorem pass?_eq_next {o : Option (Ret × Kernel R)} (h : s.pass? o = .next (ret, t)) :
    ∃ k, o = some (ret, k) ∧ t = { s with kernel := k } := by
  cases o with
  | none => cases h
  | some r =>
      obtain ⟨rfl, rfl⟩ := pass_eq_next h
      exact ⟨r.2, rfl, rfl⟩

/-- What `do_io` comes to: its raw function's result, or `EBADF`. -/
theorem doIo_eq_next {fd : ℤ} {o : Option (Ret × Kernel R)} (h : doIo enabled s fd o o = .next (ret, t)) :
    (∃ k, o = some (ret, k) ∧ t = { s with kernel := k }) ∨
      (∃ ctx, s.get fd = .ok (some ctx) ∧ ctx.isClosed = true ∧ ret = .fail EBADF ∧ t = s) := by
  unfold doIo at h
  split at h
  · exact Or.inl (pass?_eq_next h)
  · cases hget : s.get fd with
    | error e =>
        rw [hget] at h
        cases h
    | ok ctx =>
        rw [hget] at h
        cases ctx with
        | none => exact Or.inl (pass?_eq_next h)
        | some c =>
            dsimp only at h
            split at h
            · next hclosed =>
                obtain ⟨rfl, rfl⟩ : Ret.fail EBADF = ret ∧ s = t := by simpa using h
                exact Or.inr ⟨c, rfl, hclosed, rfl, rfl⟩
            · split at h
              · exact Or.inl (pass?_eq_next h)
              · exact Or.inl (pass?_eq_next h)

/-- What `socket` comes to: the raw call's result, tracked where hooks are on. -/
theorem socket_eq_next {type : Flags} {fd : ℕ} {v : Verdict} {p : Probe}
    (h : socket enabled s type fd v p = .next (ret, t)) :
    (∃ e, v = .refuse e ∧ ret = .fail e ∧ t = s) ∨
      (v = .allow ∧ s.kernel.fds fd = none ∧ ret = .ok fd ∧ ∃ file : File, file = ⟨true, O_RDWR.setNonblock type.nonblock⟩ ∧
        t = if enabled then getAutoCreate { s with kernel := s.kernel.install fd file } fd p
          else { s with kernel := s.kernel.install fd file }) := by
  cases enabled with
  | false =>
      obtain ⟨k, hraw, rfl⟩ := pass?_eq_next h
      obtain ⟨e, rfl, rfl, rfl⟩ | ⟨hv, hfree, rfl, rfl⟩ := socket_f_eq_some hraw
      · exact Or.inl ⟨e, rfl, rfl, rfl⟩
      · exact Or.inr ⟨hv, hfree, rfl, _, rfl, rfl⟩
  | true =>
      simp only [socket, Bool.not_true, Bool.false_eq_true, if_false] at h
      cases hraw : socket_f s.kernel type fd v with
      | none =>
          rw [hraw] at h
          cases h
      | some r =>
          obtain ⟨raw, k⟩ := r
          rw [hraw] at h
          obtain ⟨e, rfl, rfl, rfl⟩ | ⟨hv, hfree, rfl, rfl⟩ := socket_f_eq_some hraw
          · obtain ⟨rfl, rfl⟩ : Ret.fail e = ret ∧ s = t := by simpa [Ret.fail] using h
            exact Or.inl ⟨e, rfl, rfl, rfl⟩
          · have hne : ¬ (fd : ℤ) = -1 := by omega
            obtain ⟨rfl, rfl⟩ : Ret.ok fd = ret ∧ _ = t := by simpa [Ret.ok, hne] using h
            exact Or.inr ⟨hv, hfree, rfl, _, rfl, rfl⟩

/-- A `socket` that the kernel performs, on a thread with hooks. -/
theorem socket_allow {type : Flags} {fd : ℕ} (hfree : s.kernel.fds fd = none) (p : Probe) :
    socket true s type fd .allow p =
      .next (.ok fd,
        getAutoCreate { s with kernel := s.kernel.install fd ⟨true, O_RDWR.setNonblock type.nonblock⟩ } fd p) := by
  have hne : ¬ (fd : ℤ) = -1 := by omega
  simp [socket, socket_f, hfree, Ret.ok, hne]

/-- What `accept` comes to: the new descriptor is tracked whether hooks are on or not. -/
theorem accept_eq_next {sockfd : ℤ} {fd : ℕ} {v : Verdict} {p : Probe} (h : accept enabled s sockfd fd v p = .next (ret, t)) :
    (∃ e, ret = .fail e ∧ t = s ∧ (v = .allow → s.kernel.fileOf sockfd = none ∨
        ∃ ctx, s.get sockfd = .ok (some ctx) ∧ ctx.isClosed = true)) ∨
      (v = .allow ∧ s.kernel.fileOf sockfd ≠ none ∧ s.kernel.fds fd = none ∧ ret = .ok fd ∧
        t = getAutoCreate { s with kernel := s.kernel.install fd ⟨true, O_RDWR⟩ } fd p) := by
  unfold accept at h
  split at h
  · next ret' t' hdo =>
      obtain ⟨k, hraw, rfl⟩ | ⟨ctx, hget, hclosed, rfl, rfl⟩ := doIo_eq_next hdo
      · obtain ⟨e, hwhy, rfl, rfl⟩ | ⟨hv, hopen, hfree, rfl, rfl⟩ := accept_f_eq_some hraw
        · obtain ⟨rfl, rfl⟩ : Ret.fail e = ret ∧ s = t := by simpa [Ret.fail] using h
          exact Or.inl ⟨e, rfl, rfl, fun hv => Or.inl (hwhy hv)⟩
        · obtain ⟨rfl, rfl⟩ : Ret.ok fd = ret ∧ _ = t := by simpa [Ret.ok] using h
          exact Or.inr ⟨hv, hopen, hfree, rfl, rfl⟩
      · obtain ⟨rfl, rfl⟩ : Ret.fail EBADF = ret ∧ t' = t := by simpa [Ret.fail] using h
        exact Or.inl ⟨EBADF, rfl, rfl, fun _ => Or.inr ⟨ctx, hget, hclosed⟩⟩
  · cases h
  · cases h

theorem get_setCtx {n : ℕ} {c : FdCtx} (h : s.fdMgr.get n = some c) (ctx : FdCtx) :
    (s.setCtx n ctx).fdMgr.get n = some ctx := by
  have hne : s.fdMgr.get n ≠ none := by simp [h]
  exact (FdManager.get_set hne ctx n).trans (if_pos rfl)

/-! ### A new descriptor -/

theorem file?_of_fds {k : Kernel R} {fd id : ℕ} (h : k.fds fd = some id) : k.file? fd = some (k.files id) := by
  have hid : k.fileOf fd = some id := h
  rw [Kernel.file?, hid, Option.map_some]

theorem file?_setFlags {k : Kernel R} {fd id : ℕ} (h : k.fds fd = some id) (f : Flags) :
    (k.setFlags id f).file? fd = some { k.files id with flags := f } := by
  rw [file?_of_fds ((congrFun (setFlags_fds id f) fd).trans h)]
  simp [Kernel.setFlags]

/-- What the raw call of a request comes to: the kernel refuses it, or the descriptor is not open, or the mode of its file becomes `mode`. -/
def Performs (k k' : Kernel R) (fd : ℕ) (v : Verdict) (ret : Ret) (mode : Bool) : Prop :=
  (∃ e, v = .refuse e ∧ ret = .fail e ∧ k' = k) ∨ (v = .allow ∧ k.fds fd = none ∧ ret = .fail EBADF ∧ k' = k) ∨
    (v = .allow ∧ ret = .ok 0 ∧ ∃ id f, k.fds fd = some id ∧ f.nonblock = mode ∧ k' = k.setFlags id f)

theorem setfl_f_performs (k : Kernel R) (fd : ℕ) (arg : Flags) (v : Verdict) :
    Performs k (setfl_f k fd arg v).2 fd v (setfl_f k fd arg v).1 arg.nonblock := by
  cases v with
  | refuse e => exact Or.inl ⟨e, rfl, rfl, rfl⟩
  | allow =>
      have hfd : k.fileOf fd = k.fds fd := rfl
      cases hid : k.fds fd with
      | none =>
          refine Or.inr (Or.inl ⟨rfl, hid, ?_, ?_⟩)
          · simp [setfl_f, hfd, hid]
          · simp [setfl_f, hfd, hid]
      | some id =>
          refine Or.inr (Or.inr ⟨rfl, ?_, id, _, hid, Flags.nonblock_setfl (k.files id).flags arg, ?_⟩)
          · simp [setfl_f, hfd, hid]
          · simp [setfl_f, hfd, hid]

theorem fionbio_f_performs (k : Kernel R) (d : ℕ) (n : BitVec 32) (v : Verdict) :
    Performs k (fionbio_f k d (some n) v).2 d v (fionbio_f k d (some n) v).1 (n ≠ 0) := by
  cases v with
  | refuse e => exact Or.inl ⟨e, rfl, rfl, rfl⟩
  | allow =>
      have hd : k.fileOf d = k.fds d := rfl
      cases hid : k.fds d with
      | none =>
          refine Or.inr (Or.inl ⟨rfl, hid, ?_, ?_⟩)
          · simp [fionbio_f, hd, hid]
          · simp [fionbio_f, hd, hid]
      | some id =>
          refine Or.inr (Or.inr ⟨rfl, ?_, id, _, hid, Flags.nonblock_setNonblock (k.files id).flags (n ≠ 0), ?_⟩)
          · simp [fionbio_f, hd, hid]
          · simp [fionbio_f, hd, hid]

theorem Performs.retags {k k' : Kernel R} {fd : ℕ} {v : Verdict} {ret : Ret} {mode : Bool}
    (h : Performs k k' fd v ret mode) : Retags k k' fd := by
  obtain ⟨_, _, _, hk⟩ | ⟨_, _, _, hk⟩ | ⟨_, _, id, f, hid, _, hk⟩ := h
  · exact Or.inl hk
  · exact Or.inl hk
  · exact Or.inr ⟨id, f, hid, hk⟩

theorem file?_install (k : Kernel R) (fd : ℕ) (file : File) : (k.install fd file).file? fd = some file := by
  have hid : (k.install fd file).fds fd = some k.nextFile := by rw [install_fds, if_pos rfl]
  rw [file?_of_fds hid]
  simp [Kernel.install]

/-- `FdCtx::init` leaves a new socket in non-blocking mode if it was made so, or if all three calls succeed, and touches no other file. -/
theorem initKernel_install (k : Kernel R) (fd : ℕ) (flags : Flags) (p : Probe) :
    ∃ f : Flags, (initKernel (k.install fd ⟨true, flags⟩) fd p).files = Function.update k.files k.nextFile ⟨true, f⟩ ∧
      f.nonblock = (flags.nonblock || decide (p = ⟨.allow, .allow, .allow⟩)) := by
  have hid : (k.install fd ⟨true, flags⟩).fds fd = some k.nextFile := by rw [install_fds, if_pos rfl]
  have hfile : (k.install fd ⟨true, flags⟩).files k.nextFile = ⟨true, flags⟩ := by simp [Kernel.install]
  rw [initKernel_eq hid (by rw [hfile]), hfile]
  split
  · next h =>
      refine ⟨flags.setfl (flags ||| O_NONBLOCK), ?_, ?_⟩
      · simp [Kernel.setFlags, Kernel.install]
      · simp [h.1, Flags.nonblock_or]
  · next h =>
      refine ⟨flags, rfl, ?_⟩
      by_cases hp : p = ⟨.allow, .allow, .allow⟩
      · have hblock : flags.nonblock = true := by simpa [hp] using h
        simp [hblock]
      · simp [hp]

theorem file?_initKernel (k : Kernel R) (fd : ℕ) (flags : Flags) (p : Probe) :
    ∃ f : Flags, (initKernel (k.install fd ⟨true, flags⟩) fd p).file? fd = some ⟨true, f⟩ ∧
      f.nonblock = (flags.nonblock || decide (p = ⟨.allow, .allow, .allow⟩)) := by
  obtain ⟨f, hfiles, hblock⟩ := initKernel_install k fd flags p
  have hid : (initKernel (k.install fd ⟨true, flags⟩) fd p).fds fd = some k.nextFile := by
    rw [initKernel_fds, install_fds, if_pos rfl]
  exact ⟨f, by rw [file?_of_fds hid, hfiles, Function.update_self], hblock⟩

theorem fstat_install (k : Kernel R) (fd : ℕ) (flags : Flags) (v : Verdict) :
    fstat (k.install fd ⟨true, flags⟩) fd v = if v = .allow then some true else none := by
  cases v with
  | refuse e => rfl
  | allow => simp [fstat, file?_install]

/-- An `accept` that the kernel performs. -/
theorem accept_allow {sockfd : ℤ} {fd : ℕ} (hopen : s.kernel.fileOf sockfd ≠ none) (hfree : s.kernel.fds fd = none)
    (hctx : ∀ n ctx, s.fdMgr.get n = some ctx → ctx.isClosed = false) (p : Probe) :
    accept enabled s sockfd fd .allow p =
      .next (.ok fd, getAutoCreate { s with kernel := s.kernel.install fd ⟨true, O_RDWR⟩ } fd p) := by
  have hraw : accept_f s.kernel sockfd fd .allow = some (.ok fd, s.kernel.install fd ⟨true, O_RDWR⟩) := by
    simp [accept_f, hopen, hfree]
  have hpass : doIo enabled s sockfd (accept_f s.kernel sockfd fd .allow) (accept_f s.kernel sockfd fd .allow) =
      .next (.ok fd, { s with kernel := s.kernel.install fd ⟨true, O_RDWR⟩ }) := by
    rw [hraw]
    obtain ⟨_, hget⟩ | ⟨hneg, _⟩ := s.get_cases sockfd
    · cases hc : s.fdMgr.get sockfd.toNat with
      | none => simp [doIo, hget, hc, State.pass?, State.pass, State.withKernel]
      | some ctx => simp [doIo, hget, hc, hctx _ ctx hc, State.pass?, State.pass, State.withKernel]
    · cases sockfd with
      | ofNat n => exact absurd (Int.natCast_nonneg n) hneg
      | negSucc n => exact absurd rfl hopen
  rw [accept, hpass]
  simp [Ret.ok]

theorem socketCtx_eq_some {ctx : Option FdCtx} {c : FdCtx} (h : socketCtx ctx = some c) :
    ctx = some c ∧ c.isClosed = false ∧ c.isSocket = true := by
  obtain ⟨hctx, hc⟩ := Option.filter_eq_some_iff.1 h
  simpa [hctx] using hc

theorem socketCtx_some {c : FdCtx} (hopen : c.isClosed = false) : socketCtx (some c) = if c.isSocket then some c else none := by
  cases hsocket : c.isSocket with
  | true => simp [socketCtx, Option.filter, hopen, hsocket]
  | false => simp [socketCtx, Option.filter, hopen, hsocket]

/-- An `F_GETFL` that the kernel performs on a tracked descriptor. -/
theorem getfl_allow {n : ℕ} {c : FdCtx} {file : File} (hget : s.fdMgr.get n = some c) (hopen : c.isClosed = false)
    (hfile : s.kernel.file? n = some file) :
    getfl s n .allow =
      .next (.ok (if c.isSocket then file.flags.setNonblock c.userNonblock else file.flags).toInt, s) := by
  have hlook : s.get n = .ok (some c) := congrArg Except.ok hget
  have hraw : getfl_f s.kernel n .allow = .ok file.flags.toInt := by rw [getfl_f, hfile]
  rw [getfl, hlook, hraw]
  dsimp only
  rw [socketCtx_some hopen]
  cases c.isSocket with
  | true => simp [Ret.ok]
  | false => simp [Ret.ok]

/-- What `fcntl` with `F_SETFL` comes to. -/
theorem setfl_eq_next {fd : ℤ} {arg : Flags} {v : Verdict} (h : setfl s fd arg v = .next (ret, t)) :
    0 ≤ fd ∧
      ((socketCtx (s.fdMgr.get fd.toNat) = none ∧ ret = (setfl_f s.kernel fd arg v).1 ∧
          t = { s with kernel := (setfl_f s.kernel fd arg v).2 }) ∨
        ∃ c, s.fdMgr.get fd.toNat = some c ∧ c.isClosed = false ∧ c.isSocket = true ∧
          ret = (setfl_f s.kernel fd (arg.setNonblock c.sysNonblock) v).1 ∧
          t = { s.setCtx fd { c with userNonblock := arg.nonblock } with
                kernel := (setfl_f s.kernel fd (arg.setNonblock c.sysNonblock) v).2 }) := by
  unfold setfl at h
  obtain ⟨hpos, hget⟩ | ⟨_, hget⟩ := s.get_cases fd
  · simp only [hget] at h
    refine ⟨hpos, ?_⟩
    cases hctx : socketCtx (s.fdMgr.get fd.toNat) with
    | none =>
        rw [hctx] at h
        obtain ⟨rfl, rfl⟩ := pass_eq_next h
        exact Or.inl ⟨rfl, rfl, rfl⟩
    | some c =>
        rw [hctx] at h
        obtain ⟨rfl, rfl⟩ := pass_eq_next h
        obtain ⟨hsome, hopen, hsocket⟩ := socketCtx_eq_some hctx
        exact Or.inr ⟨c, hsome, hopen, hsocket, rfl, rfl⟩
  · simp only [hget] at h
    cases h

/-- What `ioctl` with `FIONBIO` comes to. -/
theorem fionbio_eq_next {d : ℤ} {arg : Option (BitVec 32)} {v : Verdict} (h : fionbio s d arg v = .next (ret, t)) :
    0 ≤ d ∧ ∃ n, arg = some n ∧ ret = (fionbio_f s.kernel d (some n) v).1 ∧
      ((socketCtx (s.fdMgr.get d.toNat) = none ∧ t = { s with kernel := (fionbio_f s.kernel d (some n) v).2 }) ∨
        ∃ c, s.fdMgr.get d.toNat = some c ∧ c.isClosed = false ∧ c.isSocket = true ∧
          t = { s.setCtx d { c with userNonblock := n ≠ 0 } with kernel := (fionbio_f s.kernel d (some n) v).2 }) := by
  unfold fionbio at h
  cases arg with
  | none => cases h
  | some n =>
      obtain ⟨hpos, hget⟩ | ⟨_, hget⟩ := s.get_cases d
      · simp only [hget] at h
        refine ⟨hpos, n, rfl, ?_⟩
        cases hctx : socketCtx (s.fdMgr.get d.toNat) with
        | none =>
            rw [hctx] at h
            obtain ⟨rfl, rfl⟩ := pass_eq_next h
            exact ⟨rfl, Or.inl ⟨rfl, rfl⟩⟩
        | some c =>
            rw [hctx] at h
            obtain ⟨rfl, rfl⟩ := pass_eq_next h
            obtain ⟨hsome, hopen, hsocket⟩ := socketCtx_eq_some hctx
            exact ⟨rfl, Or.inr ⟨c, hsome, hopen, hsocket, rfl⟩⟩
      · simp only [hget] at h
        cases h

/-- `fcntl` with `F_GETFL` leaves everything as it is. -/
theorem getfl_eq_next {fd : ℤ} {v : Verdict} (h : getfl s fd v = .next (ret, t)) : t = s := by
  unfold getfl at h
  obtain ⟨_, hget⟩ | ⟨_, hget⟩ := s.get_cases fd
  · simp only [hget] at h
    cases hctx : socketCtx (s.fdMgr.get fd.toNat) with
    | none =>
        rw [hctx] at h
        obtain ⟨_, rfl⟩ : getfl_f s.kernel fd v = ret ∧ s = t := by simpa using h
        rfl
    | some c =>
        rw [hctx] at h
        obtain ⟨_, rfl⟩ : _ = ret ∧ s = t := by simpa using h
        rfl
  · simp only [hget] at h
    cases h

/-- What `setsockopt` comes to: the raw call, and a timeout noted in a context. -/
theorem setsockopt_eq_next {raw : RawCalls R} {sockfd : ℤ} {opt : SockOpt}
    (h : setsockopt raw enabled s sockfd opt = .next (ret, t)) :
    ∃ k, k = (raw.controlCall (.setsockopt sockfd opt) s.kernel).2 ∧
      (t = { s with kernel := k } ∨
        ∃ c type ms, s.fdMgr.get sockfd.toNat = some c ∧ t = { s.setCtx sockfd (c.setTimeout type ms) with kernel := k }) := by
  unfold setsockopt at h
  split at h
  · exact ⟨_, rfl, Or.inl (pass_eq_next h).2⟩
  · cases opt with
    | other level optname optval => exact ⟨_, rfl, Or.inl (pass_eq_next h).2⟩
    | timeout optname optval =>
        obtain ⟨_, hget⟩ | ⟨_, hget⟩ := s.get_cases sockfd
        · cases hctx : s.fdMgr.get sockfd.toNat with
          | none =>
              simp only [hget, hctx] at h
              exact ⟨_, rfl, Or.inl (pass_eq_next h).2⟩
          | some c =>
              simp only [hget, hctx] at h
              exact ⟨_, rfl, Or.inr ⟨c, optname, optval.toMs, rfl, (pass_eq_next h).2⟩⟩
        · simp only [hget] at h
          cases h

/-- What `close` comes to: the raw call, with the context dropped first where hooks are on. -/
theorem close_eq_next {fd : ℤ} {freed : Bool} {v : Verdict} (h : close enabled s fd freed v = .next (ret, t)) :
    t.kernel = (close_f s.kernel fd freed v).2 ∧ t.fdMgr.datas.length = s.fdMgr.datas.length ∧
      ∀ n : ℕ, t.fdMgr.get n = if enabled ∧ fd = n then none else s.fdMgr.get n := by
  unfold close at h
  cases enabled with
  | false =>
      obtain ⟨_, rfl⟩ := pass_eq_next h
      exact ⟨rfl, rfl, by simp⟩
  | true =>
      simp only [Bool.not_true, Bool.false_eq_true, if_false] at h
      obtain ⟨hpos, hget⟩ | ⟨_, hget⟩ := s.get_cases fd
      · cases hctx : s.fdMgr.get fd.toNat with
        | none =>
            simp only [hget, hctx] at h
            obtain ⟨_, rfl⟩ := pass_eq_next h
            refine ⟨rfl, rfl, fun n => ?_⟩
            split
            · next heq => rwa [heq.2, Int.toNat_natCast] at hctx
            · rfl
        | some c =>
            simp only [hget, hctx] at h
            obtain ⟨_, rfl⟩ := pass_eq_next h
            refine ⟨rfl, FdManager.length_del _, fun n => ?_⟩
            have heq : n = fd.toNat ↔ fd = n := by omega
            simp only [FdManager.get_del, heq, true_and]
      · simp only [hget] at h
        cases h

end Awcotn.EntryPoint
