import Kallisto.Verification.Queue.History

/-! # The invariant of the queue and its threads -/

namespace Kallisto.Queue

variable {T Tid : Type}

/-- The auxiliary state: the phase of every position, the numbers of positions claimed
by producers and consumers, and the threads that may still claim one for an enqueue. -/
structure Ghost (T Tid : Type) where
  phase : ℕ → Phase T Tid
  enq : ℕ
  deq : ℕ
  claimants : Finset Tid

namespace Ghost

def set (γ : Ghost T Tid) (p : ℕ) (next : Phase T Tid) : Ghost T Tid :=
  { γ with phase := Function.update γ.phase p next }

/-- A producer claims the next position. -/
def reserve [DecidableEq Tid] (γ : Ghost T Tid) (t : Tid) (x : T) : Ghost T Tid :=
  { γ.set γ.enq (.reserved t x) with enq := γ.enq + 1, claimants := γ.claimants.erase t }

/-- A consumer claims the oldest position. -/
def take (γ : Ghost T Tid) (t : Tid) (x : T) : Ghost T Tid :=
  { γ.set γ.deq (.taken t x) with deq := γ.deq + 1 }

theorem set_phase (γ : Ghost T Tid) (p p' : ℕ) (next : Phase T Tid) :
    (γ.set p next).phase p' = if p' = p then next else γ.phase p' :=
  Function.update_apply γ.phase p next p'

theorem reserve_phase [DecidableEq Tid] (γ : Ghost T Tid) (t : Tid) (x : T) (p : ℕ) :
    (γ.reserve t x).phase p = if p = γ.enq then .reserved t x else γ.phase p :=
  γ.set_phase γ.enq p (.reserved t x)

theorem take_phase (γ : Ghost T Tid) (t : Tid) (x : T) (p : ℕ) :
    (γ.take t x).phase p = if p = γ.deq then .taken t x else γ.phase p :=
  γ.set_phase γ.deq p (.taken t x)

end Ghost

/-- An event that is neither a claim nor a successful return. -/
def Event.Quiet : Event T Tid → Prop
  | .enqueueBegins _ _ => True
  | .enqueueFull _ => True
  | .dequeueBegins _ => True
  | .dequeueEmpty _ => True
  | _ => False

/-! ## Phases and the history -/

structure Ledger (γ : Ghost T Tid) (log : List (Event T Tid)) : Prop where
  chronicle : Chronicle log
  enq : (enqueueClaimed log).length = γ.enq
  deq : (dequeueClaimed log).length = γ.deq
  item : ∀ t pos x, .enqueueClaims t pos x ∈ log → (γ.phase pos.toNat).item = some x
  released : ∀ pos x, (∃ t, .enqueueReturns t pos x ∈ log) ↔
    (γ.phase pos.toNat).released = some x
  returned : ∀ t pos d, .dequeueReturns t pos d ∈ log →
    (γ.phase pos.toNat).returned.isSome

namespace Ledger

variable {γ γ' : Ghost T Tid} {log : List (Event T Tid)} {t : Tid} {pos : UInt64} {x : T}

/-- A phase change that neither claims nor returns anything. -/
theorem congr (hl : Ledger γ log) (henq : γ'.enq = γ.enq) (hdeq : γ'.deq = γ.deq)
    (hitem : ∀ p, (γ'.phase p).item = (γ.phase p).item)
    (hreleased : ∀ p, (γ'.phase p).released = (γ.phase p).released)
    (hreturned : ∀ p, (γ'.phase p).returned = (γ.phase p).returned) : Ledger γ' log where
  chronicle := hl.chronicle
  enq := by rw [hl.enq, henq]
  deq := by rw [hl.deq, hdeq]
  item t pos x hmem := by
    rw [hitem]
    exact hl.item t pos x hmem
  released pos x := by
    rw [hreleased]
    exact hl.released pos x
  returned t pos d hmem := by
    rw [hreturned]
    exact hl.returned t pos d hmem

/-- A phase change within one call. -/
theorem set (hl : Ledger γ log) {p : ℕ} {next : Phase T Tid}
    (hitem : next.item = (γ.phase p).item) (hreleased : next.released = (γ.phase p).released)
    (hreturned : next.returned = (γ.phase p).returned) : Ledger (γ.set p next) log := by
  have hphase : ∀ {α : Type} (f : Phase T Tid → α), f next = f (γ.phase p) →
      ∀ p', f ((γ.set p next).phase p') = f (γ.phase p') := by
    intro α f hf p'
    rw [Ghost.set_phase]
    split
    · rename_i he
      rw [hf, he]
    · rfl
  exact hl.congr rfl rfl (hphase _ hitem) (hphase _ hreleased) (hphase _ hreturned)

theorem quiet (hl : Ledger γ log) {e : Event T Tid} (he : e.Quiet) : Ledger γ (e :: log) := by
  have hclaim : ∀ t pos x, .enqueueClaims t pos x ≠ e := by
    rintro t pos x rfl
    exact he
  have hreturn : ∀ t pos x, .enqueueReturns t pos x ≠ e := by
    rintro t pos x rfl
    exact he
  have hdreturn : ∀ t pos d, .dequeueReturns t pos d ≠ e := by
    rintro t pos d rfl
    exact he
  exact {
    chronicle := by
      refine ⟨?_, hl.chronicle⟩
      cases e <;> trivial
    enq := by
      rw [← hl.enq]
      cases e <;> first | rfl | exact he.elim
    deq := by
      rw [← hl.deq]
      cases e <;> first | rfl | exact he.elim
    item := by
      intro t pos x hmem
      exact hl.item t pos x ((List.mem_cons.mp hmem).resolve_left (hclaim t pos x))
    released := by
      intro pos x
      rw [← hl.released]
      simp [hreturn]
    returned := by
      intro t pos d hmem
      exact hl.returned t pos d ((List.mem_cons.mp hmem).resolve_left (hdreturn t pos d)) }

theorem claim [DecidableEq Tid] (hl : Ledger γ log) (hpos : pos.toNat = γ.enq)
    (hfree : γ.phase γ.enq = .free) : Ledger (γ.reserve t x) (.enqueueClaims t pos x :: log) where
  chronicle := ⟨by rw [Follows, hl.enq, hpos], hl.chronicle⟩
  enq := congrArg (· + 1) hl.enq
  deq := hl.deq
  item t' pos' x' hmem := by
    rw [Ghost.reserve_phase]
    rcases List.mem_cons.mp hmem with he | hmem
    · obtain ⟨_, rfl, rfl⟩ := Event.enqueueClaims.inj he
      rw [if_pos hpos]
      rfl
    · have hlt := hl.chronicle.claim_lt hmem
      rw [hl.enq] at hlt
      rw [if_neg hlt.ne]
      exact hl.item t' pos' x' hmem
  released pos' x' := by
    have hphase : ((γ.reserve t x).phase pos'.toNat).released =
        (γ.phase pos'.toNat).released := by
      rw [Ghost.reserve_phase]
      split
      · rename_i he
        rw [he, hfree]
        rfl
      · rfl
    rw [hphase, ← hl.released]
    simp
  returned t' pos' d hmem := by
    have hmem : .dequeueReturns t' pos' d ∈ log := by simpa using hmem
    have hsome := hl.returned t' pos' d hmem
    rw [Ghost.reserve_phase]
    split
    · rename_i he
      rw [he, hfree] at hsome
      cases hsome
    · exact hsome

theorem release (hl : Ledger γ log) (hphase : γ.phase pos.toNat = .written t x)
    (hsince : ClaimedSinceBegin t pos x log) :
    Ledger (γ.set pos.toNat (.published x)) (.enqueueReturns t pos x :: log) where
  chronicle := ⟨hsince, hl.chronicle⟩
  enq := hl.enq
  deq := hl.deq
  item t' pos' x' hmem := by
    have hmem : .enqueueClaims t' pos' x' ∈ log := by simpa using hmem
    have hitem := hl.item t' pos' x' hmem
    rw [Ghost.set_phase]
    split
    · rename_i he
      rwa [he, hphase] at hitem
    · exact hitem
  released pos' x' := by
    rw [Ghost.set_phase]
    by_cases he : pos' = pos
    · subst he
      have hnone : ¬ ∃ t', .enqueueReturns t' pos' x' ∈ log := by
        rw [hl.released, hphase]
        simp [Phase.released]
      simp only [if_true, Phase.released, Option.some.injEq]
      constructor
      · rintro ⟨t', hmem⟩
        rcases List.mem_cons.mp hmem with he | hmem
        · exact (Event.enqueueReturns.inj he).2.2.symm
        · exact absurd ⟨t', hmem⟩ hnone
      · rintro rfl
        exact ⟨t, List.mem_cons_self⟩
    · have hne : pos'.toNat ≠ pos.toNat := fun h => he (UInt64.toNat_inj.mp h)
      rw [if_neg hne, ← hl.released]
      simp [he]
  returned t' pos' d hmem := by
    have hmem : .dequeueReturns t' pos' d ∈ log := by simpa using hmem
    have hsome := hl.returned t' pos' d hmem
    rw [Ghost.set_phase]
    split
    · rename_i he
      rw [he, hphase] at hsome
      cases hsome
    · exact hsome

theorem take (hl : Ledger γ log) (hpos : pos.toNat = γ.deq)
    (hphase : γ.phase γ.deq = .published x) :
    Ledger (γ.take t x) (.dequeueClaims t pos :: log) where
  chronicle := ⟨by rw [Follows, hl.deq, hpos], hl.chronicle⟩
  enq := hl.enq
  deq := congrArg (· + 1) hl.deq
  item t' pos' x' hmem := by
    have hitem := hl.item t' pos' x' (by simpa using hmem)
    rw [Ghost.take_phase]
    split
    · rename_i he
      rwa [he, hphase] at hitem
    · exact hitem
  released pos' x' := by
    have hreleased : ((γ.take t x).phase pos'.toNat).released =
        (γ.phase pos'.toNat).released := by
      rw [Ghost.take_phase]
      split
      · rename_i he
        rw [he, hphase]
        rfl
      · rfl
    rw [hreleased, ← hl.released]
    simp
  returned t' pos' d hmem := by
    have hsome := hl.returned t' pos' d (by simpa using hmem)
    rw [Ghost.take_phase]
    split
    · rename_i he
      rw [he, hphase] at hsome
      cases hsome
    · exact hsome

theorem recycle (hl : Ledger γ log) (hphase : γ.phase pos.toNat = .emptied t x) :
    Ledger (γ.set pos.toNat (.recycled x)) (.dequeueReturns t pos (some x) :: log) where
  chronicle := by
    refine ⟨⟨?_, ?_⟩, hl.chronicle⟩
    · intro hmem
      obtain ⟨e, he, hpos⟩ := List.mem_filterMap.mp hmem
      cases e with
      | dequeueReturns t' pos' d =>
        obtain rfl : pos' = pos := Option.some.inj hpos
        have hsome := hl.returned t' pos' d he
        rw [hphase] at hsome
        cases hsome
      | _ => cases hpos
    · obtain ⟨t', hmem⟩ := (hl.released pos x).mpr (by rw [hphase]; rfl)
      exact ⟨t', x, hmem, rfl⟩
  enq := hl.enq
  deq := hl.deq
  item t' pos' x' hmem := by
    have hitem := hl.item t' pos' x' (by simpa using hmem)
    rw [Ghost.set_phase]
    split
    · rename_i he
      rwa [he, hphase] at hitem
    · exact hitem
  released pos' x' := by
    have hreleased : ((γ.set pos.toNat (.recycled x)).phase pos'.toNat).released =
        (γ.phase pos'.toNat).released := by
      rw [Ghost.set_phase]
      split
      · rename_i he
        rw [he, hphase]
        rfl
      · rfl
    rw [hreleased, ← hl.released]
    simp
  returned t' pos' d hmem := by
    rw [Ghost.set_phase]
    split
    · rfl
    · rename_i hne
      rcases List.mem_cons.mp hmem with he | hmem
      · exact absurd (congrArg UInt64.toNat (Event.dequeueReturns.inj he).2.1) hne
      · exact hl.returned t' pos' d hmem

end Ledger

end Kallisto.Queue
