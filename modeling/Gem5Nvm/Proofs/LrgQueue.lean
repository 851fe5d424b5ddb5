import Gem5Nvm.LrgQueue
import Gem5Nvm.Lib.Run

/-!
# The least recently granted policy selects nothing

The two checks of `selectPacket` stop the simulation where they should let it go on: a requestor is
unrecognized if the controller has it, and the list to serve is empty if it has an element.  What
passes both takes the front of an empty list.  So no packet is ever selected.
-/

namespace Gem5Nvm

namespace LrgQueuePolicy

theorem selectLoop_cons (hasRequestor : ℕ → Bool) (toServe : List ℕ) (pkt : QosPacket)
    (rest : List QosPacket) (idx : ℕ) (track : List (ℕ × ℕ)) :
    ∃ e, selectLoop hasRequestor toServe (pkt :: rest) idx track = .error e := by
  rw [selectLoop]
  rcases pkt.req with _ | id
  · exact ⟨_, rfl⟩
  dsimp only
  rcases hasRequestor id with _ | _
  · rcases toServe with _ | ⟨front, others⟩
    · exact ⟨_, rfl⟩
    · exact ⟨_, rfl⟩
  · exact ⟨_, rfl⟩

end LrgQueuePolicy

namespace LrgCtrl

variable {s : LrgCtrl} {queue : ℕ}

theorem select_error (h : s.queues queue ≠ []) : ∃ e, s.step (.select queue) = .error e := by
  obtain ⟨pkt, rest, hq⟩ := List.exists_cons_of_ne_nil h
  obtain ⟨e, he⟩ := LrgQueuePolicy.selectLoop_cons s.hasRequestor s.toServe pkt rest 0 []
  refine ⟨e, ?_⟩
  rw [step, LrgQueuePolicy.selectPacket, hq, he]
  rfl

theorem fair_iff_idle (s : LrgCtrl) (c : Call) : s.Fair c ↔ s.Idle c := by
  rcases c with ⟨queue, pkt⟩ | id | queue
  · exact Iff.rfl
  · exact Iff.rfl
  · constructor
    · intro hfair
      by_contra hne
      obtain ⟨i, s', hrun, -⟩ := hfair hne
      obtain ⟨e, he⟩ := select_error hne
      rw [he] at hrun
      cases hrun
    · exact fun hidle hne => absurd hidle hne

/-- In every run, of known requestors or not, the selections return the packets that are due exactly
if there are none. -/
theorem selections_fair_iff (calls : List Call) :
    Run.Along step Fair start calls ↔ Run.Along step Idle start calls :=
  Run.along_congr (I := fun _ => True) (D := fun _ => True)
    (fun s c _ _ => ⟨fair_iff_idle s c, fun _ _ _ _ => trivial⟩) calls trivial fun _ _ => trivial

/-- A packet of a requestor that the controller knows. -/
theorem known_requestor_panics :
    Run.Along step Known start [.enqueue 0 ⟨some 5⟩, .register 5, .select 0] ∧
    Run.run step start [.enqueue 0 ⟨some 5⟩, .register 5, .select 0]
      = .error (.panic "%s: Unrecognized Requestor\n") := by
  refine ⟨⟨trivial, ?_⟩, by rfl⟩
  rintro _ _ ⟨⟩
  refine ⟨trivial, ?_⟩
  rintro _ _ ⟨⟩
  refine ⟨?_, fun _ _ _ => trivial⟩
  intro pkt hpkt
  obtain rfl := List.mem_singleton.1 hpkt
  exact ⟨5, by decide, rfl⟩

end LrgCtrl

end Gem5Nvm
