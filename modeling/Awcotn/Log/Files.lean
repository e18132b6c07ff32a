import Awcotn.Foundation.Streams
import Awcotn.Log.Output

/-!
# What is in the files

A `FileLogAppender` opens its file when it is constructed, which empties it, and from then on writes through a stream of its own, whose buffer goes to the file at some time, at the latest when the appender is destroyed. Assignments to `logs` construct and destroy appenders one after another while others go on. `recorded_as_configured` is about runs in which no two appenders have the same file by the settings, and in which no assignment passes a file from one logger to another: what is in the files and in the buffers is what the settings ask for, where a statement appends and an assignment empties the files of the definitions that it adds or changes.

Files are told apart by their names. Those that cannot be opened stay as they are.
-/

namespace Awcotn

open Transition Streams

/-! ### The functions -/

def AppenderKind.file? : AppenderKind → Option String
  | .file filename => some filename
  | .stdout => none

/-- What is written to a file. -/
def Written.onFile (w : Written) : Option (String × List Char) := w.1.file?.map fun filename => (filename, w.2.toList)

namespace LoggerManager

variable (strftime : List Char → ℕ → String)

/-- The appenders that `Logger::log` calls, those of the root logger where the logger has none. -/
def called (m : LoggerManager) (name : String) (level : LogLevel) : List ℕ :=
  if (m.objects.logger name).level ≤ level.value then
    if (m.objects.logger name).appenders = [] then
      if name ≠ "root" ∧ (m.objects.logger "root").level ≤ level.value then (m.objects.logger "root").appenders else []
    else (m.objects.logger name).appenders
  else []

/-- What a statement writes through which streams. -/
def streamed (m : LoggerManager) (event : LogEvent) : List (ℕ × String × List Char) :=
  (m.called event.logger event.level).flatMap fun ap =>
    (((m.objects.appender ap).log strftime event.level event).getD []).filterMap fun w => (Written.onFile w).map (Prod.mk ap)

/-- The streams that have been constructed, in order. -/
def opens (m m' : LoggerManager) : List (ℕ × String) :=
  (List.range' m.fresh (m'.fresh - m.fresh)).filterMap fun ap => (m'.objects.appender ap).kind.file?.map (Prod.mk ap)

/-- An appender of some logger writes to a file. -/
def Attached (m : LoggerManager) (ap : ℕ) (filename : String) : Prop :=
  ∃ name, ap ∈ (m.objects.logger name).appenders ∧ (m.objects.appender ap).kind = .file filename

end LoggerManager

namespace Settings

/-- The files of a logger's appenders. -/
def files (c : Settings) : List (Option String) := c.appenders.map fun shown => shown.1.file?

/-- No two appenders have the same file. -/
def Distinct (settings : String → Settings) : Prop :=
  ∀ name name' (i j : ℕ) (filename : String), (settings name).files[i]? = some (some filename) →
    (settings name').files[j]? = some (some filename) → name = name' ∧ i = j

/-- No file passes from one logger to another. -/
def Apart (before after : String → Settings) : Prop :=
  ∀ name name' (filename : String), some filename ∈ (before name).files → some filename ∈ (after name').files → name = name'

/-- The files of the definitions that a new value adds or changes. -/
def opened (old_value new_value : LogDefines) : List String :=
  (new_value.defines.filter fun d => LogDefines.find old_value.defines d ≠ some d).flatMap fun d =>
    d.appenders.filterMap fun a => (LoggerManager.asked a).1.file?

end Settings

namespace LoggerManager

/-- The streams of the loggers that the loop over the old value removes. -/
def removed (m : LoggerManager) (old_value new_value : List LogDefine) : List ℕ :=
  (old_value.filter fun d => LogDefines.find new_value d = none).flatMap fun d => (m.objects.logger d.name).appenders

/-- What the loop over the new value does to the files. A definition that takes effect destroys the appenders of its logger, constructs others, and then the names that are gone lose theirs. -/
def diskFrom (ok : String → Bool) (old_value new_value : List LogDefine) :
    LoggerManager → Disk ℕ String Char → List LogDefine → Disk ℕ String Char
  | _, disk, [] => disk
  | m, disk, i :: rest =>
    if LogDefines.find old_value i = some i then diskFrom ok old_value new_value m disk rest
    else
      match m.configure i with
      | some m' =>
        let cleared := disk.closeAll (Char.ofNat 0) (m.objects.logger i.name).appenders
        let opened := cleared.truncateAll ok (m.opens m')
        diskFrom ok old_value new_value (removeAll new_value m' old_value)
          (opened.closeAll (Char.ofNat 0) (m'.removed old_value new_value)) rest
      | none => disk

end LoggerManager

/-- The loggers with the files, and what the settings ask for in them. -/
structure Recorded where
  output : Output
  disk : Disk ℕ String Char
  book : String → List Char

/-- A statement or an assignment, or some of the buffer of an appender goes to its file. -/
inductive RecordedAction
  | output (a : OutputAction)
  | drain (ap n : ℕ)

namespace Recorded

section

variable (strftime : List Char → ℕ → String) (ok : String → Bool)

/-- Files with contents from before. -/
def init (content : String → List Char) : Recorded where
  output := .init
  disk := { content := content, streams := fun _ => none }
  book := content

/-- The files after a statement or an assignment. -/
def diskAfter (s : Recorded) : OutputAction → Disk ℕ String Char
  | .log event => s.disk.writeAll ((s.output.logs.manager.getLogger event.logger).streamed strftime event)
  | .setValue val at_ =>
    if val.defines = s.output.logs.value.defines then s.disk
    else
      LoggerManager.diskFrom ok s.output.logs.value.defines val.defines s.output.logs.manager
        (s.disk.writeAll (s.output.logs.manager.streamed strftime (Output.changed at_))) val.defines

/-- The contents that the settings ask for after a statement. -/
def noted (s : Recorded) (event : LogEvent) : String → List Char :=
  ((Settings.written strftime s.output.settings event).filterMap Written.onFile).foldl (fun c w => append ok c w.1 w.2) s.book

/-- The contents that the settings ask for after a statement or an assignment. -/
def bookAfter (s : Recorded) : OutputAction → String → List Char
  | .log event => s.noted strftime ok event
  | .setValue val at_ =>
    if val.defines = s.output.logs.value.defines then s.book
    else emptied ok (Settings.opened s.output.logs.value val) (s.noted strftime ok (Output.changed at_))

def step (s : Recorded) : RecordedAction → Outcome Unit Recorded
  | .output a =>
    (Output.step strftime s.output a).map fun output =>
      { output := output, disk := s.diskAfter strftime ok a, book := s.bookAfter strftime ok a }
  | .drain ap n => .next { s with disk := s.disk.drain (Char.ofNat 0) ap n }

end

/-- An assignment gives no file to two appenders, and none to another logger than before. -/
def Separate (s : Recorded) : RecordedAction → Prop
  | .output (.setValue val _) =>
    Settings.Distinct (Settings.reconfigured s.output.logs.value val s.output.settings) ∧
      Settings.Apart s.output.settings (Settings.reconfigured s.output.logs.value val s.output.settings)
  | _ => True

/-- What is in a file, with the buffer of its stream if there is one, is what the settings ask for. -/
def Agrees (s : Recorded) : Prop :=
  ∀ filename, (∀ ap, s.output.logs.manager.Attached ap filename → s.disk.content filename ++ s.disk.pending ap = s.book filename) ∧
    ((∀ ap, ¬ s.output.logs.manager.Attached ap filename) → s.disk.content filename = s.book filename)

end Recorded

/-! ### Which appenders are constructed -/

namespace LoggerManager

variable {m m' m'' : LoggerManager} {kinds kinds' : List AppenderKind} {name : String} {d : LogDefine}

/-- From `m` to `m'` appenders of these kinds are constructed, in order, and those there were keep theirs. -/
structure Creates (m m' : LoggerManager) (kinds : List AppenderKind) : Prop where
  fresh : m'.fresh = m.fresh + kinds.length
  kept : ∀ ap < m.fresh, (m'.objects.appender ap).kind = (m.objects.appender ap).kind
  made : ∀ i kind, kinds[i]? = some kind → (m'.objects.appender (m.fresh + i)).kind = kind

theorem Creates.of_same (hfresh : m'.fresh = m.fresh)
    (hkind : ∀ ap, (m'.objects.appender ap).kind = (m.objects.appender ap).kind) : Creates m m' [] :=
  ⟨hfresh, fun ap _ => hkind ap, by simp⟩

theorem Creates.trans (h : Creates m m' kinds) (h' : Creates m' m'' kinds') : Creates m m'' (kinds ++ kinds') where
  fresh := by rw [h'.fresh, h.fresh, List.length_append, Nat.add_assoc]
  kept ap hap := (h'.kept ap (by rw [h.fresh]; omega)).trans (h.kept ap hap)
  made i kind hi := by
    by_cases hlt : i < kinds.length
    · rw [List.getElem?_append_left hlt] at hi
      rw [h'.kept _ (by rw [h.fresh]; omega)]
      exact h.made i kind hi
    · rw [List.getElem?_append_right (by omega)] at hi
      have hmade := h'.made (i - kinds.length) kind hi
      rwa [h.fresh, show m.fresh + kinds.length + (i - kinds.length) = m.fresh + i by omega] at hmade

theorem on_creates {f : Logging String ℕ LogFormatter → Logging String ℕ LogFormatter}
    (hkind : ∀ ap, ((f m.objects).appender ap).kind = (m.objects.appender ap).kind) : Creates m (m.on f) [] :=
  .of_same rfl hkind

theorem getLogger_creates (m : LoggerManager) (name : String) : Creates m (m.getLogger name) [] := by
  unfold getLogger
  split_ifs
  · exact .of_same rfl fun _ => rfl
  · exact .of_same rfl fun _ => rfl

theorem setFormatterString_kind (s : Logging String ℕ LogFormatter) (name val : String) (ap : ℕ) :
    ((s.setFormatterString LogFormatter.mk LogFormatter.isError name val).appender ap).kind = (s.appender ap).kind := by
  unfold Logging.setFormatterString
  split_ifs
  · rfl
  · simp only [Logging.setFormatter, Logging.inherit_apply]
    split_ifs <;> rfl

theorem attached_creates (m : LoggerManager) (name : String) (x : LogAppender LogFormatter) :
    Creates m (m.attached name x) [x.kind] where
  fresh := rfl
  kept ap hap := by
    have hne : ap ≠ m.fresh := Nat.ne_of_lt hap
    simp [attached, hne]
  made i kind hi := by
    obtain ⟨rfl, hkind⟩ : i = 0 ∧ x.kind = kind := by
      cases i with
      | zero => simpa using hi
      | succ i => simp at hi
    simpa [attached] using hkind

/-- The loop over the appender definitions attaches what it constructs. -/
theorem addDefined_creates {appenders : List LogAppenderDefine} (htype : ∀ a ∈ appenders, a.type = 1 ∨ a.type = 2)
    (hformatter : ∀ a ∈ appenders, ValidFormatter a.formatter) (hrun : appenders.foldlM (addDefined name) m = some m') :
    Creates m m' (appenders.map fun a => (asked a).1) ∧
      (m'.objects.logger name).appenders = (m.objects.logger name).appenders ++ List.range' m.fresh appenders.length := by
  induction appenders generalizing m with
  | nil =>
      cases hrun
      exact ⟨.of_same rfl fun _ => rfl, by simp⟩
  | cons a appenders ih =>
      obtain ⟨x, hadd, hshown⟩ := addDefined_eq m name (htype a List.mem_cons_self) (hformatter a List.mem_cons_self)
      rw [List.foldlM_cons, hadd] at hrun
      obtain ⟨hcreates, hattached⟩ := ih (fun b hb => htype b (List.mem_cons_of_mem _ hb))
        (fun b hb => hformatter b (List.mem_cons_of_mem _ hb)) hrun
      have hkind : x.kind = (asked a).1 := congrArg Prod.fst hshown
      refine ⟨?_, ?_⟩
      · rw [List.map_cons, ← hkind]
        exact (attached_creates m name x).trans hcreates
      · rw [hattached]
        simp [attached, List.range'_succ]

/-- A definition leaves its logger with the appenders constructed for it. -/
theorem configure_creates (hd : d.Valid) (hrun : m.configure d = some m') :
    Creates m m' (d.appenders.map fun a => (asked a).1) ∧
      (m'.objects.logger d.name).appenders = List.range' m.fresh d.appenders.length := by
  have hcleared : ∀ n : LoggerManager, Creates m n [] →
      d.appenders.foldlM (addDefined d.name) (n.on fun s => s.clearAppenders d.name) = some m' →
      Creates m m' (d.appenders.map fun a => (asked a).1) ∧
        (m'.objects.logger d.name).appenders = List.range' m.fresh d.appenders.length := by
    intro n hn hloop
    obtain ⟨hcreates, hattached⟩ := addDefined_creates hd.type hd.appender hloop
    have hclear : Creates n (n.on fun s => s.clearAppenders d.name) [] := on_creates fun _ => rfl
    have hfresh : n.fresh = m.fresh := hn.fresh
    refine ⟨(hn.trans hclear).trans hcreates, ?_⟩
    rw [hattached]
    simp [on, Logging.clearAppenders, hfresh]
  have hlevel : Creates m ((m.getLogger d.name).on fun s => s.setLevel d.name d.level.value) [] :=
    (getLogger_creates m d.name).trans (on_creates fun _ => rfl)
  simp only [configure] at hrun
  split_ifs at hrun
  · exact hcleared _ (hlevel.trans (on_creates fun _ => setFormatterString_kind _ _ _ _)) hrun
  · exact hcleared _ hlevel hrun

/-! ### Which streams are opened and closed -/

theorem file?_eq_some {kind : AppenderKind} {filename : String} : kind.file? = some filename ↔ kind = .file filename := by
  cases kind <;> simp [AppenderKind.file?]

theorem mem_opens (h : Creates m m' kinds) {ap : ℕ} {filename : String} :
    (ap, filename) ∈ m.opens m' ↔ ∃ i, ap = m.fresh + i ∧ kinds[i]? = some (.file filename) := by
  have hlength : m'.fresh - m.fresh = kinds.length := by
    have hfresh := h.fresh
    omega
  simp only [opens, hlength, List.mem_filterMap, Option.map_eq_some_iff, Prod.mk.injEq, file?_eq_some]
  constructor
  · rintro ⟨a, ha, f, hkind, rfl, rfl⟩
    obtain ⟨hle, hlt⟩ := List.mem_range'_1.1 ha
    obtain ⟨i, rfl⟩ := Nat.exists_eq_add_of_le hle
    have hi : i < kinds.length := by omega
    refine ⟨i, rfl, ?_⟩
    rw [List.getElem?_eq_getElem hi, ← hkind]
    exact congrArg some (h.made i _ (List.getElem?_eq_getElem hi)).symm
  · rintro ⟨i, rfl, hkind⟩
    obtain ⟨hi, -⟩ := List.getElem?_eq_some_iff.1 hkind
    exact ⟨m.fresh + i, List.mem_range'_1.2 (by omega), filename, h.made i _ hkind, rfl, rfl⟩

theorem mem_snd_opens (h : Creates m m' kinds) {filename : String} :
    filename ∈ (m.opens m').map Prod.snd ↔ .file filename ∈ kinds := by
  simp only [List.mem_map, Prod.exists, exists_eq_right, mem_opens h]
  rw [exists_comm, List.mem_iff_getElem?]
  simp only [exists_eq_left]

/-- A definition destroys the appenders of its logger and attaches those that are constructed. -/
theorem attached_configure (h : m.Owned) (hd : d.Valid) (hrun : m.configure d = some m') (ap : ℕ) (filename : String) :
    m'.Attached ap filename ↔
      (ap, filename) ∈ m.opens m' ∨ m.Attached ap filename ∧ ap ∉ (m.objects.logger d.name).appenders := by
  obtain ⟨hcreates, happenders⟩ := configure_creates hd hrun
  obtain ⟨n, hrun', hmoves, -⟩ := configure_eq h hd
  obtain rfl : m' = n := Option.some.inj (hrun.symm.trans hrun')
  constructor
  · rintro ⟨name, hmem, hkind⟩
    by_cases hname : name = d.name
    · rw [hname, happenders] at hmem
      obtain ⟨hle, hlt⟩ := List.mem_range'_1.1 hmem
      obtain ⟨i, rfl⟩ := Nat.exists_eq_add_of_le hle
      have hi : i < (d.appenders.map fun a => (asked a).1).length := by
        rw [List.length_map]
        omega
      refine .inl ((mem_opens hcreates).2 ⟨i, rfl, ?_⟩)
      rw [List.getElem?_eq_getElem hi, ← hcreates.made i _ (List.getElem?_eq_getElem hi), hkind]
    · rw [hmoves.logger name hname] at hmem
      rw [hmoves.appender name hname ap hmem] at hkind
      exact .inr ⟨⟨name, hmem, hkind⟩, fun hin => hname (h.one name d.name ap hmem hin)⟩
  · rintro (hopen | ⟨⟨name, hmem, hkind⟩, hout⟩)
    · obtain ⟨i, rfl, hi⟩ := (mem_opens hcreates).1 hopen
      obtain ⟨hlt, -⟩ := List.getElem?_eq_some_iff.1 hi
      rw [List.length_map] at hlt
      refine ⟨d.name, ?_, hcreates.made i _ hi⟩
      rw [happenders, List.mem_range'_1]
      omega
    · have hname : name ≠ d.name := by
        rintro rfl
        exact hout hmem
      refine ⟨name, ?_, ?_⟩
      · rwa [hmoves.logger name hname]
      · rwa [hmoves.appender name hname ap hmem]

theorem mem_removed {old_value new_value : List LogDefine} {ap : ℕ} :
    ap ∈ m.removed old_value new_value ↔ ∃ name, Removed old_value new_value name ∧ ap ∈ (m.objects.logger name).appenders := by
  simp only [removed, List.mem_flatMap, List.mem_filter, decide_eq_true_eq, Removed]
  constructor
  · rintro ⟨e, ⟨he, hgone⟩, hap⟩
    exact ⟨e.name, ⟨e, he, rfl, hgone⟩, hap⟩
  · rintro ⟨_, ⟨e, he, rfl, hgone⟩, hap⟩
    exact ⟨e, ⟨he, hgone⟩, hap⟩

theorem attached_removeAll (h : m.Owned) (old_value new_value : List LogDefine) (ap : ℕ) (filename : String) :
    (removeAll new_value m old_value).Attached ap filename ↔ m.Attached ap filename ∧ ap ∉ m.removed old_value new_value := by
  obtain ⟨hmoves, hdisabled⟩ := removeAll_spec h old_value new_value
  rw [mem_removed]
  constructor
  · rintro ⟨name, hmem, hkind⟩
    have hstays : ¬ Removed old_value new_value name := by
      intro hgone
      rw [(hdisabled name hgone).appenders] at hmem
      cases hmem
    rw [hmoves.logger name hstays] at hmem
    rw [hmoves.appender name hstays ap hmem] at hkind
    refine ⟨⟨name, hmem, hkind⟩, ?_⟩
    rintro ⟨name', hgone, hmem'⟩
    exact hstays (h.one name name' ap hmem hmem' ▸ hgone)
  · rintro ⟨⟨name, hmem, hkind⟩, hstays⟩
    have hname : ¬ Removed old_value new_value name := fun hgone => hstays ⟨name, hgone, hmem⟩
    refine ⟨name, ?_, ?_⟩
    · rwa [hmoves.logger name hname]
    · rwa [hmoves.appender name hname ap hmem]

/-! ### What a statement writes -/

variable {strftime : List Char → ℕ → String} {event : LogEvent} {written : List Written}

theorem log_eq_called : m.log strftime event.logger event.level event =
    ((m.called event.logger event.level).mapM fun ap => (m.objects.appender ap).log strftime event.level event).map
      List.flatten := by
  simp only [log, Logging.log, called]
  by_cases hlevel : (m.objects.logger event.logger).level ≤ event.level.value
  · rw [if_pos hlevel, if_pos hlevel]
    by_cases hnone : (m.objects.logger event.logger).appenders = []
    · rw [if_pos hnone, if_pos hnone]
      by_cases hroot : event.logger = "root"
      · simp [hroot]
      · rw [if_neg hroot]
        by_cases hlevel' : (m.objects.logger "root").level ≤ event.level.value
        · rw [if_pos hlevel', if_pos (And.intro hroot hlevel')]
          by_cases hnone' : (m.objects.logger "root").appenders = []
          · simp [hnone']
          · rw [if_neg hnone']
        · rw [if_neg hlevel', if_neg fun h => hlevel' h.2]
          simp
    · rw [if_neg hnone, if_neg hnone]
  · rw [if_neg hlevel, if_neg hlevel]
    simp

theorem snd_of_mapM {log : ℕ → Option (List Written)} {aps : List ℕ} {written : List (List Written)} (h : aps.mapM log = some written) :
    (aps.flatMap fun ap => ((log ap).getD []).filterMap fun w => (Written.onFile w).map (Prod.mk ap)).map Prod.snd =
      written.flatten.filterMap Written.onFile := by
  rw [mapM_eq_some_iff] at h
  induction h with
  | nil => rfl
  | cons hlog _ ih =>
      rw [List.flatMap_cons, List.map_append, ih, List.flatten_cons, List.filterMap_append, hlog, Option.getD_some,
        List.map_filterMap]
      simp [Function.comp_def]

/-- The streams get what the statement writes. -/
theorem snd_streamed (h : m.AWCOTN_LOG_LEVEL strftime event = some written) :
    (m.streamed strftime event).map Prod.snd = written.filterMap Written.onFile := by
  rw [AWCOTN_LOG_LEVEL] at h
  split_ifs at h with hlevel
  · rw [log_eq_called] at h
    obtain ⟨lists, hlists, rfl⟩ := Option.map_eq_some_iff.1 h
    exact snd_of_mapM hlists
  · cases h
    simp [streamed, called, hlevel]

theorem mem_called {name : String} {level : LogLevel} {ap : ℕ} (h : ap ∈ m.called name level) :
    ∃ name', ap ∈ (m.objects.logger name').appenders := by
  unfold called at h
  split_ifs at h
  · exact ⟨_, h⟩
  · cases h
  · exact ⟨_, h⟩
  · cases h

theorem attached_of_streamed {w : ℕ × String × List Char} (h : w ∈ m.streamed strftime event) : m.Attached w.1 w.2.1 := by
  obtain ⟨ap, hap, hw⟩ := List.mem_flatMap.1 h
  obtain ⟨v, hv, hfile⟩ := List.mem_filterMap.1 hw
  obtain ⟨f, hf, rfl⟩ := Option.map_eq_some_iff.1 hfile
  obtain ⟨name, hname⟩ := mem_called hap
  refine ⟨name, hname, ?_⟩
  obtain ⟨filename, hkind, rfl⟩ := Option.map_eq_some_iff.1 hf
  rw [file?_eq_some] at hkind
  rw [← hkind]
  simp only [LogAppender.log] at hv
  split_ifs at hv
  · cases hformatter : (m.objects.appender ap).formatter with
    | none => simp [hformatter] at hv
    | some formatter => simp_all
  · simp at hv

/-! ### Files of their own -/

/-- The files of a logger's appenders. -/
def files (m : LoggerManager) (name : String) : List (Option String) := (m.shownAppenders name).map fun shown => shown.1.file?

/-- Each logger has the files from before or those from after an assignment. -/
def Between (before after : String → Settings) (m : LoggerManager) : Prop :=
  ∀ name, m.files name = (before name).files ∨ m.files name = (after name).files

theorem files_of_attached {i ap : ℕ} {filename : String} (hi : (m.objects.logger name).appenders[i]? = some ap)
    (hkind : (m.objects.appender ap).kind = .file filename) : (m.files name)[i]? = some (some filename) := by
  simp [files, shownAppenders, hi, shown, hkind, AppenderKind.file?]

theorem alone_of_between {before after : String → Settings} (hbefore : Settings.Distinct before) (hafter : Settings.Distinct after)
    (hapart : Settings.Apart before after) (h : m.Between before after) (ap : ℕ) (f : String) (ap' : ℕ) (f' : String)
    (hap : m.Attached ap f) (hap' : m.Attached ap' f') : ap = ap' ↔ f = f' := by
  obtain ⟨name, hmem, hkind⟩ := hap
  obtain ⟨name', hmem', hkind'⟩ := hap'
  obtain ⟨i, hi⟩ := List.mem_iff_getElem?.1 hmem
  obtain ⟨j, hj⟩ := List.mem_iff_getElem?.1 hmem'
  constructor
  · rintro rfl
    exact AppenderKind.file.inj (hkind.symm.trans hkind')
  · rintro rfl
    have hfile := files_of_attached hi hkind
    have hfile' := files_of_attached hj hkind'
    have hname : name = name' := by
      rcases h name with hb | ha
      · rcases h name' with hb' | ha'
        · exact (hbefore name name' i j f (hb ▸ hfile) (hb' ▸ hfile')).1
        · exact hapart name name' f (List.mem_of_getElem? (hb ▸ hfile)) (List.mem_of_getElem? (ha' ▸ hfile'))
      · rcases h name' with hb' | ha'
        · exact (hapart name' name f (List.mem_of_getElem? (hb' ▸ hfile')) (List.mem_of_getElem? (ha ▸ hfile))).symm
        · exact (hafter name name' i j f (ha ▸ hfile) (ha' ▸ hfile')).1
    subst hname
    have hij : i = j := by
      rcases h name with hb | ha
      · exact (hbefore name name i j f (hb ▸ hfile) (hb ▸ hfile')).2
      · exact (hafter name name i j f (ha ▸ hfile) (ha ▸ hfile')).2
    subst hij
    exact Option.some.inj (hi.symm.trans hj)

theorem files_of_moves {S : String → Prop} (hmoves : Moves S m m') (hname : ¬ S name) : m'.files name = m.files name := by
  rw [files, files, shownAppenders, shownAppenders, hmoves.logger name hname]
  exact congrArg _ (List.map_congr_left fun ap hap => congrArg shown (hmoves.appender name hname ap hap))

theorem between_configure {before after : String → Settings} (h : m.Owned) (hd : d.Valid) (hrun : m.configure d = some m')
    (hbetween : m.Between before after) (hfiles : d.appenders.map (fun a => (asked a).1.file?) = (after d.name).files) :
    m'.Between before after := by
  obtain ⟨n, hrun', hmoves, -, -, -, happenders⟩ := configure_eq h hd
  obtain rfl : m' = n := Option.some.inj (hrun.symm.trans hrun')
  intro name
  by_cases hname : name = d.name
  · right
    rw [hname, files, happenders, List.map_map]
    exact hfiles
  · rw [files_of_moves hmoves hname]
    exact hbetween name

theorem between_removeAll {before after : String → Settings} (h : m.Owned) {old_value new_value : List LogDefine}
    (hbetween : m.Between before after) (hgone : ∀ name, Removed old_value new_value name → (after name).files = []) :
    (removeAll new_value m old_value).Between before after := by
  obtain ⟨hmoves, hdisabled⟩ := removeAll_spec h old_value new_value
  intro name
  by_cases hname : Removed old_value new_value name
  · right
    rw [hgone name hname, files, shownAppenders, (hdisabled name hname).appenders, List.map_nil, List.map_nil]
  · rw [files_of_moves hmoves hname]
    exact hbetween name

/-! ### What an assignment does to the files -/

variable {ok : String → Bool} {disk : Disk ℕ String Char} {book : String → List Char}

/-- The files of a definition. -/
theorem mem_snd_opens_configure (hd : d.Valid) (hrun : m.configure d = some m') {filename : String} :
    filename ∈ (m.opens m').map Prod.snd ↔ filename ∈ d.appenders.filterMap fun a => (asked a).1.file? := by
  rw [mem_snd_opens (configure_creates hd hrun).1]
  simp only [List.mem_map, List.mem_filterMap, file?_eq_some]

/-- A definition that takes effect empties its files. -/
theorem aligned_configure (h : m.Owned) (hd : d.Valid) (hrun : m.configure d = some m') (halign : Aligned ok m.Attached disk book)
    (halone : ∀ ap f ap' f', m'.Attached ap f → m'.Attached ap' f' → (ap = ap' ↔ f = f')) :
    Aligned ok m'.Attached
      ((disk.closeAll (Char.ofNat 0) (m.objects.logger d.name).appenders).truncateAll ok (m.opens m'))
      (emptied ok (d.appenders.filterMap fun a => (asked a).1.file?) book) := by
  have hcreates := (configure_creates hd hrun).1
  have hreopen := (halign.closeAll (Char.ofNat 0) (m.objects.logger d.name).appenders).reopen
    (fun ap f f' hf hf' => ?_) (fun ap f f' hf hlive => ?_) halone (attached_configure h hd hrun)
  · rwa [emptied_congr fun f => mem_snd_opens_configure hd hrun] at hreopen
  · obtain ⟨i, rfl, hi⟩ := (mem_opens hcreates).1 hf
    obtain ⟨j, hij, hj⟩ := (mem_opens hcreates).1 hf'
    obtain rfl : i = j := by omega
    exact AppenderKind.file.inj (Option.some.inj (hj.symm.trans hi))
  · -- the streams that are opened are new
    obtain ⟨i, rfl, -⟩ := (mem_opens hcreates).1 hf
    obtain ⟨⟨name, hmem, -⟩, -⟩ := hlive
    have hlt := h.fresh name _ hmem
    omega

/-- The loop over the new value empties the files of the definitions that take effect. -/
theorem aligned_diskFrom {before after : String → Settings} (hbefore : Settings.Distinct before)
    (hafter : Settings.Distinct after) (hapart : Settings.Apart before after) {old_value new_value rest : List LogDefine} (h : m.Owned)
    (hvalid : ∀ d ∈ rest, d.Valid) (hrun : changeFrom old_value new_value m rest = some m') (hbetween : m.Between before after)
    (hfiles : ∀ d ∈ rest, Changed old_value d → d.appenders.map (fun a => (asked a).1.file?) = (after d.name).files)
    (hgone : (∃ d ∈ rest, Changed old_value d) → ∀ name, Removed old_value new_value name → (after name).files = [])
    (halign : Aligned ok m.Attached disk book) :
    Aligned ok m'.Attached (diskFrom ok old_value new_value m disk rest)
      (emptied ok ((rest.filter fun d => LogDefines.find old_value d ≠ some d).flatMap fun d =>
        d.appenders.filterMap fun a => (asked a).1.file?) book) := by
  induction rest generalizing m disk book with
  | nil =>
      cases hrun
      simpa [diskFrom] using halign
  | cons i rest ih =>
      have hvalid' : ∀ d ∈ rest, d.Valid := fun d hd => hvalid d (List.mem_cons_of_mem _ hd)
      have hfiles' := fun d hd => hfiles d (List.mem_cons_of_mem i hd)
      have hgone' : (∃ d ∈ rest, Changed old_value d) → ∀ name, Removed old_value new_value name → (after name).files = [] :=
        fun ⟨d, hd, hchanged⟩ => hgone ⟨d, List.mem_cons_of_mem i hd, hchanged⟩
      simp only [changeFrom] at hrun
      split_ifs at hrun with hsame
      · simp only [diskFrom, if_pos hsame]
        rw [List.filter_cons_of_neg (by simpa using hsame)]
        exact ih h hvalid' hrun hbetween hfiles' hgone' halign
      · obtain ⟨m₁, hconfigure, hrest⟩ := Option.bind_eq_some_iff.1 hrun
        have hi := hvalid i List.mem_cons_self
        obtain ⟨m₂, hconfigure', hmoves₁, -⟩ := configure_eq h hi
        obtain rfl : m₁ = m₂ := Option.some.inj (hconfigure.symm.trans hconfigure')
        obtain ⟨hmoves₂, -⟩ := removeAll_spec hmoves₁.owned old_value new_value
        have hbetween₁ := between_configure h hi hconfigure hbetween (hfiles i List.mem_cons_self hsame)
        have hbetween₂ := between_removeAll hmoves₁.owned hbetween₁ (hgone ⟨i, List.mem_cons_self, hsame⟩)
        have hopened := aligned_configure h hi hconfigure halign (alone_of_between hbefore hafter hapart hbetween₁)
        have hclosed := (hopened.closeAll (Char.ofNat 0) (m₁.removed old_value new_value)).congr
          (attached_removeAll hmoves₁.owned old_value new_value)
        have hall := ih hmoves₂.owned hvalid' hrest hbetween₂ hfiles' hgone' hclosed
        simp only [diskFrom, if_neg hsame, hconfigure]
        rw [List.filter_cons_of_pos (by simpa using hsame), List.flatMap_cons, ← emptied_emptied]
        exact hall

end LoggerManager

/-! ### Runs -/

namespace Recorded

variable {strftime : List Char → ℕ → String} {ok : String → Bool} {s : Recorded}

/-- Streams and files are as the settings ask for, and these have no file twice. -/
structure Inv (ok : String → Bool) (s : Recorded) : Prop where
  output : s.output.Inv
  distinct : Settings.Distinct s.output.settings
  aligned : Aligned ok s.output.logs.manager.Attached s.disk s.book

theorem notMem_files_initial (name filename : String) : some filename ∉ (Settings.initial name).files := by
  simp only [Settings.files, Settings.initial]
  split_ifs <;> simp [AppenderKind.file?]

theorem distinct_initial : Settings.Distinct Settings.initial :=
  fun name _ _ _ filename h _ => absurd (List.mem_of_getElem? h) (notMem_files_initial name filename)

theorem init_inv (content : String → List Char) : (init content).Inv ok := by
  have hnone : ∀ ap filename, ¬ (init content).output.logs.manager.Attached ap filename := by
    rintro ap filename ⟨name, hmem, hkind⟩
    obtain ⟨i, hi⟩ := List.mem_iff_getElem?.1 hmem
    have hfile := LoggerManager.files_of_attached hi hkind
    have hshows : (init content).output.logs.manager.shownAppenders name = (Settings.initial name).appenders :=
      (Output.init_inv.shows name).appenders
    rw [LoggerManager.files, hshows] at hfile
    exact notMem_files_initial name filename (List.mem_of_getElem? hfile)
  exact
    { output := Output.init_inv
      distinct := distinct_initial
      aligned :=
        { alone := fun ap f _ _ hap _ => absurd hap (hnone ap f)
          opened := fun ap f hap _ => absurd hap (hnone ap f)
          failed := fun _ _ _ _ => rfl
          rest := fun _ _ => rfl
          closed := fun _ _ => rfl } }

theorem aligned_statement (strftime : List Char → ℕ → String) {m : LoggerManager} {settings : String → Settings}
    (hshows : ∀ name, m.Shows name (settings name)) (hinherits : ∀ name, m.Inherits name) (event : LogEvent)
    {disk : Disk ℕ String Char} {book : String → List Char} (h : Aligned ok m.Attached disk book) :
    Aligned ok m.Attached (disk.writeAll (m.streamed strftime event))
      (((Settings.written strftime settings event).filterMap Written.onFile).foldl (fun c w => append ok c w.1 w.2) book) := by
  have hstatement : m.AWCOTN_LOG_LEVEL strftime event = some (Settings.written strftime settings event) :=
    LoggerManager.statement_eq hshows hinherits event
  rw [← LoggerManager.snd_streamed hstatement]
  exact h.writeAll fun w hw => LoggerManager.attached_of_streamed hw

theorem aligned_setValue {s : Output} (h : s.Inv) {val : LogDefines} (hne : val.defines ≠ s.logs.value.defines) {t : LogsState}
    (hstep : s.logs.step (.setValue val) = .next t) (hbefore : Settings.Distinct s.settings)
    (hafter : Settings.Distinct (Settings.reconfigured s.logs.value val s.settings))
    (hapart : Settings.Apart s.settings (Settings.reconfigured s.logs.value val s.settings)) {disk : Disk ℕ String Char}
    {book : String → List Char} (halign : Aligned ok s.logs.manager.Attached disk book) :
    Aligned ok t.manager.Attached
      (LoggerManager.diskFrom ok s.logs.value.defines val.defines s.logs.manager disk val.defines)
      (emptied ok (Settings.opened s.logs.value val) book) := by
  have hshows := Output.shows_setValue h hne hstep
  obtain ⟨-, -, -, hpatched, hdisabled⟩ := LogsState.setValue_spec h.logs hne hstep
  refine LoggerManager.aligned_diskFrom hbefore hafter hapart h.logs.owned val.valid (Output.onLogsChanged_of_step hne hstep)
    (fun name => .inl ?_) (fun d hd hchanged => ?_) (fun hchanged name hgone => ?_) halign
  · rw [LoggerManager.files, (h.shows name).appenders, Settings.files]
  · rw [Settings.files, ← (hshows d.name).appenders, (hpatched d hd hchanged).appenders, List.map_map]
    rfl
  · rw [Settings.files, ← (hshows name).appenders, LoggerManager.shownAppenders, (hdisabled hchanged name hgone).appenders]
    rfl

theorem attached_getLogger {m : LoggerManager} (h : m.Owned) (name : String) : (m.getLogger name).Attached = m.Attached := by
  funext ap filename
  rw [LoggerManager.Attached, LoggerManager.Attached, LoggerManager.getLogger_objects h]

theorem Inv.log (h : s.Inv ok) {event : LogEvent} {output : Output}
    (houtput : Output.step strftime s.output (.log event) = .next output) (hinv : output.Inv) :
    Inv ok { output := output, disk := s.diskAfter strftime ok (.log event), book := s.bookAfter strftime ok (.log event) } := by
  have howned := h.output.logs.owned
  have hget := fun name => Output.shows_getLogger howned (h.output.shows name) (h.output.inherits name) event.logger
  have hattached := attached_getLogger howned event.logger
  have halign : Aligned ok (s.output.logs.manager.getLogger event.logger).Attached s.disk s.book := hattached ▸ h.aligned
  have hstatement : (s.output.logs.manager.getLogger event.logger).AWCOTN_LOG_LEVEL strftime event =
      some (Settings.written strftime s.output.settings event) :=
    LoggerManager.statement_eq (fun name => (hget name).1) (fun name => (hget name).2) event
  simp only [Output.step, hstatement] at houtput
  cases houtput
  exact ⟨hinv, h.distinct, aligned_statement strftime (fun name => (hget name).1) (fun name => (hget name).2) event halign⟩

theorem Inv.setValue (h : s.Inv ok) {val : LogDefines} {at_ : LogEvent} {output : Output}
    (hseparate : s.Separate (.output (.setValue val at_)))
    (houtput : Output.step strftime s.output (.setValue val at_) = .next output) (hinv : output.Inv) :
    Inv ok
      { output := output, disk := s.diskAfter strftime ok (.setValue val at_), book := s.bookAfter strftime ok (.setValue val at_) } := by
  by_cases hsame : val.defines = s.output.logs.value.defines
  · simp only [Output.step, if_pos hsame] at houtput
    cases houtput
    simp only [diskAfter, bookAfter, if_pos hsame]
    exact h
  · have hstatement : s.output.logs.manager.AWCOTN_LOG_LEVEL strftime (Output.changed at_) =
        some (Settings.written strftime s.output.settings (Output.changed at_)) :=
      LoggerManager.statement_eq h.output.shows h.output.inherits (Output.changed at_)
    have hwritten := aligned_statement strftime h.output.shows h.output.inherits (Output.changed at_) h.aligned
    obtain ⟨logs, hlogs⟩ := Output.setValue_returns h.output.logs hsame
    simp only [Output.step, if_neg hsame, hstatement, hlogs, Outcome.map] at houtput
    cases houtput
    refine ⟨hinv, hseparate.1, ?_⟩
    simp only [diskAfter, bookAfter, if_neg hsame]
    exact aligned_setValue h.output hsame hlogs h.distinct hseparate.1 hseparate.2 hwritten

theorem step_inv (h : s.Inv ok) {a : RecordedAction} {t : Recorded} (hseparate : s.Separate a)
    (hstep : step strftime ok s a = .next t) : t.Inv ok := by
  cases a with
  | drain ap n =>
      cases hstep
      exact ⟨h.output, h.distinct, h.aligned.drain (Char.ofNat 0) ap n⟩
  | output a =>
      obtain ⟨output, houtput, -, hinv⟩ : ∃ u, Output.step strftime s.output a = .next u ∧
          u.written = s.output.written ++ Output.expected strftime s.output a ∧ u.Inv := Output.step_expected h.output a
      simp only [step, houtput, Outcome.map] at hstep
      cases hstep
      cases a with
      | log event => exact h.log houtput hinv
      | setValue val at_ => exact h.setValue hseparate houtput hinv

end Recorded

end Awcotn
