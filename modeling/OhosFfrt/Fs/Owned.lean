import OhosFfrt.Fs.Refinement

/-!
# `fs::File`: the owned operations

`read_owned`, `read_to_end_owned` and `write_all_owned` wait for the operation under way, but leave
its result where it is and do not step back over buffered bytes, as `poll_write`, `poll_complete`
and `into_std` do.  They agree with the polled ones if nothing was read ahead (`owned_agree`).
-/

namespace OhosFfrt.Fs.Owned

open Lib.Files Lib.Runs Fs.State Fs.System
open Fs.Refinement

variable {a os₀ : SeqFile} {q : ℕ} {s : Sys} {tr : List Ev}

/-- The owned operations do to the system's file what they should do to the file `a`. -/
structure ActOn (s : Sys) (a : SeqFile) : Prop where
  read : ∀ len k, step s (.readOwned len k) =
    (a.read len k).map fun r => ({ s with os := r.2 }, [.readOwned len r.1])
  readToEnd : step s .readToEndOwned =
    some ({ s with os := a.readToEnd.2 }, [.readToEndOwned a.readToEnd.1])
  writeAll : ∀ data, step s (.writeAllOwned data) =
    some ({ s with os := a.writeAll data }, [.wroteOwned data])

theorem actOn_os (hc : s.call = none) (hw : s.file.waited = true) : ActOn s s.os := by
  have hcond : (s.call.isNone && s.file.waited) = true := by
    rw [hc, hw]
    rfl
  refine ⟨fun len k => ?_, ?_, fun data => ?_⟩
  iterate 3
    · simp only [step, if_pos hcond]

theorem same_offset (h : Sim a q s.os s.file) (hw : s.file.waited = true) :
    s.os.offset = a.offset ↔ unread s.file = [] := by
  obtain ⟨⟨hle, -⟩, rfl⟩ := h.ahead hw
  rw [← List.length_eq_zero_iff]
  show s.os.offset = s.os.offset - (unread s.file).length ↔ _
  omega

/-- **The owned operations start where the polled ones do exactly if nothing was read ahead.**  When
no call is in progress and the operation under way is over, the calls from here on go on with the
plain file `a`; the system's offset, from which an owned operation starts, is that of `a` exactly if
no bytes are buffered or in a finished read, and then the owned operations do to the file what they
should do to `a`. -/
theorem owned_agree (h : Run step NoErrors (fromStd os₀) tr s) (hc : s.call = none)
    (hw : s.file.waited = true) :
    ActOn s s.os ∧ ∃ a q, replay (os₀, 0) tr = some (a, q) ∧
      (∀ s' es, Run step NoErrors s es s' → (replay (a, q) es).isSome) ∧
      (s.os.offset = a.offset ↔ unread s.file = []) ∧ (unread s.file = [] → ActOn s a) := by
  obtain ⟨a, q, hreplay, hsim⟩ := sim_run (sim_fromStd os₀) h
  refine ⟨actOn_os hc hw, a, q, hreplay, fun s' es hrun => ?_, same_offset hsim hw, fun hu => ?_⟩
  · obtain ⟨a', q', hes, -⟩ := sim_run hsim hrun
    rw [hes]
    rfl
  · obtain ⟨-, ha⟩ := hsim.ahead hw
    rw [hu] at ha
    rw [ha]
    exact actOn_os hc hw

/-- A read of two bytes that was waited for leaves nothing: an owned read goes on after them. -/
theorem owned_agree_after_read : ∃ s tr,
    execIf step NoErrors [] (fromStd ⟨[1, 2, 3, 4], 0⟩) [.begin (.read 2), .turn, .turn,
      .execute (.ok 2), .finish, .begin (.read 2), .turn, .turn] = some (s, tr) ∧
    tr = [.pending, .read 2 [1, 2]] ∧ s.os.offset = 2 ∧
    (step s (.readOwned 2 2)).map Prod.snd = some [.readOwned 2 [3, 4]] := by
  have hall : ∀ s, Run step NoErrors (fromStd ⟨[1, 2, 3, 4], 0⟩) [.pending, .read 2 [1, 2]] s →
      s.call = none → s.file.waited = true → unread s.file = [] → s.os.offset = 2 ∧
      (step s (.readOwned 2 2)).map Prod.snd = some [.readOwned 2 [3, 4]] := by
    intro s h hc hw hu
    obtain ⟨-, a, q, hreplay, -, hoff, hact⟩ := owned_agree h hc hw
    have ha : replay (⟨[1, 2, 3, 4], 0⟩, 0) [.pending, .read 2 [1, 2]] =
      some (⟨[1, 2, 3, 4], 2⟩, 0) := rfl
    have haq := (Prod.mk.inj (Option.some.inj (hreplay.symm.trans ha))).1
    rw [hoff.mpr hu, (hact hu).read, haq]
    exact ⟨rfl, rfl⟩
  exact ⟨_, _, rfl, rfl, hall _ (run_execIf [.begin (.read 2), .turn, .turn, .execute (.ok 2),
    .finish, .begin (.read 2), .turn, .turn] .nil rfl) rfl rfl rfl⟩

/-- A read of two bytes is abandoned.  When it has finished, `read_owned` returns the two bytes
after them, and `write_all_owned` writes there, while `poll_read` returns the bytes and
`poll_write` writes at the start. -/
theorem owned_skips_abandoned_read : ∃ s tr,
    execIf step NoErrors [] (fromStd ⟨[1, 2, 3, 4], 0⟩) [.begin (.read 2), .turn, .turn,
      .execute (.ok 2), .finish] = some (s, tr) ∧
    (step s (.readOwned 2 2)).map Prod.snd = some [.readOwned 2 [3, 4]] ∧
    (exec step s [.begin (.read 2), .turn, .turn]).map Prod.snd = some [.read 2 [1, 2]] ∧
    (step s (.writeAllOwned [9])).map (fun r => r.1.os.contents) = some [1, 2, 9, 4] ∧
    (exec step s [.begin (.write [9]), .turn, .turn, .execute (.ok 0)]).map
      (fun r => r.1.os.contents) = some [9, 2, 3, 4] :=
  ⟨_, _, rfl, rfl, rfl, rfl, rfl⟩

end OhosFfrt.Fs.Owned
