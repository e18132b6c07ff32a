import Mathlib.Data.List.Basic
import Mathlib.Logic.Function.Basic
import Mathlib.Tactic.Common

/-!
# Streams on files

A stream has a file, a position of its own in the file and a buffer. What is written through it goes to the buffer first and to the file at some later time, and a file that is opened is empty at first. Where several streams have one file open, each overwrites what the others have written. Where each has a file to itself, what is in a file and in the buffer of its stream is everything that was written since it was opened: `Aligned` says so, and `Aligned.write`, `Aligned.drain`, `Aligned.close` and `Aligned.reopen` say what the operations make of it.
-/

namespace Streams

structure Stream (φ α : Type*) where
  file : φ
  pos : ℕ
  buffer : List α

/-- The contents of the files, and the streams that are open. -/
structure Disk (σ φ α : Type*) where
  content : φ → List α
  streams : σ → Option (Stream φ α)

variable {σ φ α : Type*} [DecidableEq σ] [DecidableEq φ]

/-- A text takes the place of what is at a position. What lies between the end of the file and the position is filled. -/
def overwrite (gap : α) (old : List α) (p : ℕ) (text : List α) : List α :=
  old.take p ++ List.replicate (p - old.length) gap ++ text ++ old.drop (p + text.length)

/-- Append to a file, if it can be opened. -/
def append (ok : φ → Bool) (content : φ → List α) (f : φ) (text : List α) : φ → List α :=
  if ok f then Function.update content f (content f ++ text) else content

/-- Empty the files that can be opened. -/
def emptied (ok : φ → Bool) (files : List φ) (content : φ → List α) : φ → List α :=
  fun f => if ok f = true ∧ f ∈ files then [] else content f

namespace Disk

/-- What is still to be written to the file of a stream. -/
def pending (d : Disk σ φ α) (s : σ) : List α :=
  match d.streams s with
  | some x => x.buffer
  | none => []

/-- Open a stream on a file that is to be written from the beginning. -/
def truncate (ok : φ → Bool) (d : Disk σ φ α) (s : σ) (f : φ) : Disk σ φ α where
  content := if ok f then Function.update d.content f [] else d.content
  streams := Function.update d.streams s (if ok f then some { file := f, pos := 0, buffer := [] } else none)

/-- Write through a stream. Nothing happens where it could not be opened. -/
def write (d : Disk σ φ α) (s : σ) (text : List α) : Disk σ φ α :=
  match d.streams s with
  | some x => { d with streams := Function.update d.streams s (some { x with buffer := x.buffer ++ text }) }
  | none => d

/-- The first `n` of what is in the buffer of a stream go to its file. -/
def drain (gap : α) (d : Disk σ φ α) (s : σ) (n : ℕ) : Disk σ φ α :=
  match d.streams s with
  | some x =>
    { content := Function.update d.content x.file (overwrite gap (d.content x.file) x.pos (x.buffer.take n))
      streams := Function.update d.streams s
        (some { x with pos := x.pos + (x.buffer.take n).length, buffer := x.buffer.drop n }) }
  | none => d

def forget (d : Disk σ φ α) (s : σ) : Disk σ φ α := { d with streams := Function.update d.streams s none }

/-- A stream that is closed writes the rest of its buffer. -/
def close (gap : α) (d : Disk σ φ α) (s : σ) : Disk σ φ α := (d.drain gap s (d.pending s).length).forget s

def writeAll (d : Disk σ φ α) (writes : List (σ × φ × List α)) : Disk σ φ α := writes.foldl (fun d w => d.write w.1 w.2.2) d

def closeAll (gap : α) (d : Disk σ φ α) (closed : List σ) : Disk σ φ α := closed.foldl (fun d s => d.close gap s) d

def truncateAll (ok : φ → Bool) (d : Disk σ φ α) (opens : List (σ × φ)) : Disk σ φ α :=
  opens.foldl (fun d o => d.truncate ok o.1 o.2) d

end Disk

/-- Each stream in use has a file to itself and is at its end, and the files with the buffers are as in `book`. -/
structure Aligned (ok : φ → Bool) (live : σ → φ → Prop) (d : Disk σ φ α) (book : φ → List α) : Prop where
  alone : ∀ s f s' f', live s f → live s' f' → (s = s' ↔ f = f')
  opened : ∀ s f, live s f → ok f = true →
    ∃ buffer, d.streams s = some { file := f, pos := (d.content f).length, buffer := buffer } ∧ d.content f ++ buffer = book f
  failed : ∀ s f, live s f → ok f = false → d.streams s = none
  rest : ∀ f, ok f = false ∨ (∀ s, ¬ live s f) → d.content f = book f
  closed : ∀ s, (∀ f, ¬ live s f) → d.streams s = none

variable {ok : φ → Bool} {live live' : σ → φ → Prop} {d : Disk σ φ α} {book : φ → List α} {s s' : σ} {f f' : φ}

/-! ### Files -/

theorem overwrite_length (gap : α) (old text : List α) : overwrite gap old old.length text = old ++ text := by
  simp [overwrite]

omit [DecidableEq σ] in
@[simp] theorem emptied_nil : emptied ok [] book = book := by
  funext f
  simp [emptied]

omit [DecidableEq σ] in
theorem emptied_congr {files files' : List φ} (h : ∀ f, f ∈ files ↔ f ∈ files') : emptied ok files book = emptied ok files' book := by
  funext f
  simp only [emptied, h]

omit [DecidableEq σ] in
theorem emptied_emptied (files files' : List φ) : emptied ok files' (emptied ok files book) = emptied ok (files ++ files') book := by
  funext f
  cases hok : ok f <;> by_cases hin : f ∈ files <;> simp [emptied, hok, hin]

namespace Disk

theorem pending_drain (gap : α) (d : Disk σ φ α) (s : σ) : (d.drain gap s (d.pending s).length).pending s = [] := by
  cases hstream : d.streams s <;> simp [Disk.drain, Disk.pending, hstream]

theorem content_truncateAll (d : Disk σ φ α) (opens : List (σ × φ)) (f : φ) :
    (d.truncateAll ok opens).content f = if ok f = true ∧ f ∈ opens.map Prod.snd then [] else d.content f := by
  induction opens generalizing d with
  | nil => simp [Disk.truncateAll]
  | cons o opens ih =>
      refine (ih (d.truncate ok o.1 o.2)).trans ?_
      by_cases hf : f = o.2
      · subst hf
        cases hok : ok o.2 <;> simp [Disk.truncate, hok]
      · have hcontent : (d.truncate ok o.1 o.2).content f = d.content f := by
          cases hok : ok o.2 <;> simp [Disk.truncate, hok, hf]
        simp only [hcontent, List.map_cons, List.mem_cons, hf, false_or]

theorem streams_truncateAll_of_notMem (d : Disk σ φ α) {opens : List (σ × φ)} (hs : s ∉ opens.map Prod.fst) :
    (d.truncateAll ok opens).streams s = d.streams s := by
  induction opens generalizing d with
  | nil => rfl
  | cons o opens ih =>
      rw [List.map_cons, List.mem_cons, not_or] at hs
      refine (ih (d.truncate ok o.1 o.2) hs.2).trans ?_
      exact Function.update_of_ne hs.1 _ _

/-- A stream that is opened on one file is at its beginning. -/
theorem streams_truncateAll_of_mem (d : Disk σ φ α) {opens : List (σ × φ)} (hmem : (s, f) ∈ opens)
    (hone : ∀ f', (s, f') ∈ opens → f' = f) :
    (d.truncateAll ok opens).streams s = if ok f then some { file := f, pos := 0, buffer := [] } else none := by
  induction opens generalizing d with
  | nil => cases hmem
  | cons o opens ih =>
      by_cases hrest : s ∈ opens.map Prod.fst
      · obtain ⟨o', ho', rfl⟩ := List.mem_map.1 hrest
        obtain rfl := hone o'.2 (List.mem_cons_of_mem o ho')
        exact ih (d.truncate ok o.1 o.2) ho' fun f' hf' => hone f' (List.mem_cons_of_mem o hf')
      · have hfirst : (s, f) = o := (List.mem_cons.1 hmem).resolve_right fun hin => hrest (List.mem_map_of_mem hin)
        subst hfirst
        refine (streams_truncateAll_of_notMem (d.truncate ok s f) hrest).trans ?_
        exact Function.update_self ..

end Disk

/-! ### Streams of their own -/

namespace Aligned

omit [DecidableEq φ] in
theorem same_or_apart (h : Aligned ok live d book) (hlive : live s f) (hlive' : live s' f') : s' = s ∧ f' = f ∨ s' ≠ s ∧ f' ≠ f := by
  have hiff := h.alone s' f' s f hlive' hlive
  by_cases hs : s' = s
  · exact .inl ⟨hs, hiff.1 hs⟩
  · exact .inr ⟨hs, fun hf => hs (hiff.2 hf)⟩

omit [DecidableEq σ] [DecidableEq φ] in
/-- What is in the file and in the buffer. -/
theorem content_pending (h : Aligned ok live d book) (hlive : live s f) : d.content f ++ d.pending s = book f := by
  cases hok : ok f with
  | true =>
      obtain ⟨buffer, hs, hbook⟩ := h.opened s f hlive hok
      simpa only [Disk.pending, hs] using hbook
  | false => simp only [Disk.pending, h.failed s f hlive hok, List.append_nil, h.rest f (.inl hok)]

omit [DecidableEq σ] [DecidableEq φ] in
theorem congr (h : Aligned ok live d book) (hiff : ∀ s f, live' s f ↔ live s f) : Aligned ok live' d book := by
  obtain rfl : live' = live := funext fun s => funext fun f => propext (hiff s f)
  exact h

/-! ### Writing -/

/-- What is in one file and in the buffer of its stream changes. -/
theorem store (h : Aligned ok live d book) (hlive : live s f) (hok : ok f = true) {text buffer : List α} {book' : φ → List α}
    (hbook : text ++ buffer = book' f) (hother : ∀ f', f' ≠ f → book' f' = book f') :
    Aligned ok live
      { content := Function.update d.content f text
        streams := Function.update d.streams s (some { file := f, pos := text.length, buffer := buffer }) } book' where
  alone := h.alone
  opened s' f' hlive' hok' := by
    rcases h.same_or_apart hlive hlive' with ⟨rfl, rfl⟩ | ⟨hs', hf'⟩
    · exact ⟨buffer, by simp, by simpa using hbook⟩
    · rw [hother f' hf']
      simpa only [Function.update_of_ne hs', Function.update_of_ne hf'] using h.opened s' f' hlive' hok'
  failed s' f' hlive' hok' := by
    rcases h.same_or_apart hlive hlive' with ⟨rfl, rfl⟩ | ⟨hs', -⟩
    · rw [hok] at hok'
      cases hok'
    · simpa only [Function.update_of_ne hs'] using h.failed s' f' hlive' hok'
  rest f' hf' := by
    have hne : f' ≠ f := by
      rintro rfl
      rcases hf' with hok' | hnone
      · rw [hok] at hok'
        cases hok'
      · exact hnone s hlive
    simpa only [hother f' hne, Function.update_of_ne hne] using h.rest f' hf'
  closed s' hnone := by
    have hne : s' ≠ s := fun heq => hnone f (heq ▸ hlive)
    simpa only [Function.update_of_ne hne] using h.closed s' hnone

theorem write (h : Aligned ok live d book) (hlive : live s f) (text : List α) :
    Aligned ok live (d.write s text) (append ok book f text) := by
  cases hok : ok f with
  | false =>
      have hsame : d.write s text = d := by simp only [Disk.write, h.failed s f hlive hok]
      have hbook : append ok book f text = book := by simp [append, hok]
      rw [hsame, hbook]
      exact h
  | true =>
      obtain ⟨buffer, hs, hbook⟩ := h.opened s f hlive hok
      have hwrite : d.write s text =
          { content := Function.update d.content f (d.content f)
            streams := Function.update d.streams s
              (some { file := f, pos := (d.content f).length, buffer := buffer ++ text }) } := by
        simp only [Disk.write, hs, Function.update_eq_self]
      rw [hwrite]
      refine h.store hlive hok ?_ fun f' hf' => ?_
      · rw [← List.append_assoc, hbook]
        simp [append, hok]
      · simp [append, hok, hf']

/-- Writing through streams in use appends to their files. -/
theorem writeAll (h : Aligned ok live d book) {writes : List (σ × φ × List α)} (hlive : ∀ w ∈ writes, live w.1 w.2.1) :
    Aligned ok live (d.writeAll writes) ((writes.map Prod.snd).foldl (fun c w => append ok c w.1 w.2) book) := by
  induction writes generalizing d book with
  | nil => exact h
  | cons w writes ih =>
      exact ih (h.write (hlive w List.mem_cons_self) w.2.2) fun v hv => hlive v (List.mem_cons_of_mem w hv)

variable (gap : α)

/-- It does not matter when a buffer is written. -/
theorem drain (h : Aligned ok live d book) (s : σ) (n : ℕ) : Aligned ok live (d.drain gap s n) book := by
  cases hstream : d.streams s with
  | none =>
      have hsame : d.drain gap s n = d := by simp only [Disk.drain, hstream]
      rwa [hsame]
  | some x =>
      obtain ⟨f, hlive⟩ : ∃ f, live s f := by
        by_contra hnone
        rw [h.closed s (not_exists.1 hnone)] at hstream
        cases hstream
      have hok : ok f = true := by
        by_contra hfalse
        rw [h.failed s f hlive (eq_false_of_ne_true hfalse)] at hstream
        cases hstream
      obtain ⟨buffer, hs, hbook⟩ := h.opened s f hlive hok
      have hdrain : d.drain gap s n =
          { content := Function.update d.content f (d.content f ++ buffer.take n)
            streams := Function.update d.streams s
              (some { file := f, pos := (d.content f ++ buffer.take n).length, buffer := buffer.drop n }) } := by
        simp only [Disk.drain, hs, overwrite_length, List.length_append]
      rw [hdrain]
      refine h.store hlive hok ?_ fun _ _ => rfl
      rw [List.append_assoc, List.take_append_drop, hbook]

/-! ### Closing and opening -/

omit [DecidableEq φ] in
theorem forget (h : Aligned ok live d book) (hpending : d.pending s = []) :
    Aligned ok (fun s' f => live s' f ∧ s' ≠ s) (d.forget s) book where
  alone s' f' s'' f'' hlive hlive' := h.alone s' f' s'' f'' hlive.1 hlive'.1
  opened s' f' hlive hok := by
    simpa only [Disk.forget, Function.update_of_ne hlive.2] using h.opened s' f' hlive.1 hok
  failed s' f' hlive hok := by
    simpa only [Disk.forget, Function.update_of_ne hlive.2] using h.failed s' f' hlive.1 hok
  rest f' hf' := by
    by_cases hlive : live s f'
    · have hcontent := h.content_pending hlive
      rwa [hpending, List.append_nil] at hcontent
    · refine h.rest f' (hf'.imp_right fun hnone s' hlive' => hnone s' ⟨hlive', ?_⟩)
      rintro rfl
      exact hlive hlive'
  closed s' hnone := by
    by_cases hs : s' = s
    · subst hs
      exact Function.update_self ..
    · simpa only [Disk.forget, Function.update_of_ne hs] using h.closed s' fun f hlive => hnone f ⟨hlive, hs⟩

theorem close (h : Aligned ok live d book) (s : σ) : Aligned ok (fun s' f => live s' f ∧ s' ≠ s) (d.close gap s) book :=
  (h.drain gap s _).forget (Disk.pending_drain gap d s)

theorem closeAll (h : Aligned ok live d book) (closed : List σ) :
    Aligned ok (fun s f => live s f ∧ s ∉ closed) (d.closeAll gap closed) book := by
  induction closed generalizing d live with
  | nil => exact h.congr fun s f => by simp
  | cons c closed ih => exact (ih (h.close gap c)).congr fun s f => by rw [List.mem_cons, not_or, and_assoc]

/-- New streams on files that no stream has open. -/
theorem reopen (h : Aligned ok live d book) {opens : List (σ × φ)}
    (hone : ∀ s f f', (s, f) ∈ opens → (s, f') ∈ opens → f' = f) (hnew : ∀ s f f', (s, f) ∈ opens → ¬ live s f')
    (halone : ∀ s f s' f', live' s f → live' s' f' → (s = s' ↔ f = f'))
    (hiff : ∀ s f, live' s f ↔ (s, f) ∈ opens ∨ live s f) :
    Aligned ok live' (d.truncateAll ok opens) (emptied ok (opens.map Prod.snd) book) := by
  have hopen : ∀ {s f}, live s f → s ∉ opens.map Prod.fst ∧ f ∉ opens.map Prod.snd := by
    intro s f hlive
    constructor
    · intro hs
      obtain ⟨o, ho, rfl⟩ := List.mem_map.1 hs
      exact hnew o.1 o.2 f ho hlive
    · intro hf
      obtain ⟨o, ho, rfl⟩ := List.mem_map.1 hf
      obtain rfl := (halone s o.2 o.1 o.2 ((hiff s o.2).2 (.inr hlive)) ((hiff o.1 o.2).2 (.inl ho))).2 rfl
      exact hnew o.1 o.2 o.2 ho hlive
  constructor
  · exact halone
  · intro s f hlive hok
    rcases (hiff s f).1 hlive with hmem | hold
    · have hin : f ∈ opens.map Prod.snd := List.mem_map_of_mem hmem
      refine ⟨[], ?_, ?_⟩
      · rw [Disk.streams_truncateAll_of_mem d hmem fun f' hf' => hone s f f' hmem hf', Disk.content_truncateAll, if_pos hok,
          if_pos ⟨hok, hin⟩, List.length_nil]
      · simp only [emptied, Disk.content_truncateAll, if_pos (And.intro hok hin), List.append_nil]
    · obtain ⟨hs, hf⟩ := hopen hold
      simpa only [emptied, Disk.streams_truncateAll_of_notMem d hs, Disk.content_truncateAll, hf, and_false, if_false] using h.opened s f hold hok
  · intro s f hlive hok
    rcases (hiff s f).1 hlive with hmem | hold
    · rw [Disk.streams_truncateAll_of_mem d hmem fun f' hf' => hone s f f' hmem hf', hok, if_neg Bool.false_ne_true]
    · rw [Disk.streams_truncateAll_of_notMem d (hopen hold).1]
      exact h.failed s f hold hok
  · intro f hf
    simp only [emptied, Disk.content_truncateAll]
    split_ifs with hin
    · rfl
    · refine h.rest f (hf.imp_right fun hnone s hold => hnone s ((hiff s f).2 (.inr hold)))
  · intro s hnone
    have hs : s ∉ opens.map Prod.fst := by
      intro hs
      obtain ⟨o, ho, rfl⟩ := List.mem_map.1 hs
      exact hnone o.2 ((hiff o.1 o.2).2 (.inl ho))
    rw [Disk.streams_truncateAll_of_notMem d hs]
    exact h.closed s fun f hold => hnone f ((hiff s f).2 (.inr hold))

end Aligned

-- two streams that have one file open
example : (((({ content := fun _ => [], streams := fun _ => none } : Disk Bool Unit Char).truncateAll (fun _ => true)
    [(false, ()), (true, ())]).writeAll [(false, (), ['a', 'b']), (true, (), ['c'])]).closeAll '-' [false, true]).content () =
      ['c', 'b'] := rfl

end Streams
