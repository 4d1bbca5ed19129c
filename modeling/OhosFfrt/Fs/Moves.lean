import OhosFfrt.Fs.System

/-!
# `fs::File`: what a step can do

`step_moved` lists what a step can do to a file and the operation under way.
-/

namespace OhosFfrt.Fs.Moves

open Lib.Files Fs.State Fs.System Option

variable {f f' : File} {s s' : Sys} {op : Op} {es : List Ev}

/-- **What a step can do.** -/
inductive Moved (s : Sys) : Op → Sys → List Ev → Prop
  | begin {c : Call} : Moved s (.begin c) { s with call := some c } []
  | turn {c : Call} {call : Option Call} :
      Moved s .turn { s with file := (c.turn s.file).file, call := call } (c.turn s.file).events
  | refused {position : SeekFrom} {e : IoError} : Moved s (.startSeek position) s [.failed e]
  | startSeek {position : SeekFrom} :
      Moved s (.startSeek position)
        { s with file := { s.file with pendingSeek := some position } } []
  | setMaxBufSize {n : ℕ} :
      Moved s (.setMaxBufSize n) { s with file := s.file.setMaxBufSize n } []
  | execute {o : Outcome} {operation operation' : FileOperation} {os : SeqFile}
      (hop : s.file.operation = some operation)
      (he : execute s.os o operation = some (os, operation')) :
      Moved s (.execute o)
        { s with os := os, file := { s.file with operation := some operation' } } []
  | finish {operation operation' : FileOperation} (hop : s.file.operation = some operation)
      (hf : finish operation = some operation') :
      Moved s .finish { s with file := { s.file with operation := some operation' } } []
  | readOwned {len k : ℕ} {bytes : List Byte} {os : SeqFile} (hw : s.file.waited = true)
      (hr : s.os.read len k = some (bytes, os)) :
      Moved s (.readOwned len k) { s with os := os } [.readOwned len bytes]
  | readToEndOwned (hw : s.file.waited = true) :
      Moved s .readToEndOwned { s with os := s.os.readToEnd.2 } [.readToEndOwned s.os.readToEnd.1]
  | writeAllOwned {data : List Byte} (hw : s.file.waited = true) :
      Moved s (.writeAllOwned data) { s with os := s.os.writeAll data } [.wroteOwned data]

theorem startSeek_ok {position : SeekFrom} (h : f.startSeek position = .ok f') :
    f' = { f with pendingSeek := some position } := by
  unfold File.startSeek at h
  split at h
  · cases h
  · cases h
  · cases h
    rfl

theorem step_moved (hs : step s op = some (s', es)) : Moved s op s' es := by
  rcases op with c | _ | pos | n | o | _ | ⟨len, k⟩ | _ | data
  · obtain ⟨-, ⟨⟩⟩ := ite_none_right_eq_some.mp hs
    exact .begin
  · simp only [step, map_eq_some_iff] at hs
    obtain ⟨c, -, hs⟩ := hs
    cases hs
    exact .turn
  · simp only [step, ite_none_right_eq_some] at hs
    obtain ⟨-, hs⟩ := hs
    rcases hstart : s.file.startSeek pos with e | f
    · simp only [hstart] at hs
      cases hs
      exact .refused
    · simp only [hstart] at hs
      cases hs
      rw [startSeek_ok hstart]
      exact .startSeek
  · obtain ⟨-, ⟨⟩⟩ := ite_none_right_eq_some.mp hs
    exact .setMaxBufSize
  · simp only [step, bind_eq_some_iff, map_eq_some_iff, Prod.mk.injEq] at hs
    obtain ⟨operation, hop, ⟨os, operation'⟩, he, rfl, rfl⟩ := hs
    exact .execute hop he
  · simp only [step, bind_eq_some_iff, map_eq_some_iff, Prod.mk.injEq] at hs
    obtain ⟨operation, hop, operation', hf, rfl, rfl⟩ := hs
    exact .finish hop hf
  all_goals
    simp only [step, ite_none_right_eq_some, Bool.and_eq_true, map_eq_some_iff,
      some.injEq, Prod.mk.injEq] at hs
  · obtain ⟨⟨-, hw⟩, ⟨bytes, os⟩, hr, rfl, rfl⟩ := hs
    exact .readOwned hw hr
  · obtain ⟨⟨-, hw⟩, rfl, rfl⟩ := hs
    exact .readToEndOwned hw
  · obtain ⟨⟨-, hw⟩, rfl, rfl⟩ := hs
    exact .writeAllOwned hw

end OhosFfrt.Fs.Moves
