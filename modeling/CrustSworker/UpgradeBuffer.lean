import CrustSworker.Upgrade

/-!
# The buffer of an upgrade transfer

`id_restore_from_upgrade` allocates its buffer when the offset is zero, with the total size of
that call, and copies every chunk behind the chunks before it. The offset goes back to zero with
the call that ends the transfer. Between the calls the rest of the enclave may change its
workload in any way. The chunks of the transfer that is going on are kept beside the state, so
that a condition on the sizes the host states can be compared with what the buffer has room for.
-/

namespace CrustSworker.UpgradeBuffer

open Upgrade

variable {τ : Type}

inductive Act (τ : Type) where
  | call (tagOf : Nat → τ) (c : Call)
  | elsewhere (wl : Workload τ)

section
variable (sha256 : Bytes → Hash) (mem : Mem) (verify : Verify)

def step (s : State τ) : Act τ → Option (State τ)
  | .call tagOf c => (ecallRestoreFromUpgrade sha256 mem verify tagOf s c).map Prod.snd
  | .elsewhere wl => some { s with wl := wl }

def Copies (s : State τ) (c : Call) : Prop :=
  s.wl.upgradeStatus ≠ .process ∧
    (s.received.length = 0 → encMalloc c.mallocBuffer c.totalSize = true)

instance (s : State τ) (c : Call) : Decidable (Copies s c) := inferInstanceAs (Decidable (_ ∧ _))

def room (s : State τ) (c : Call) : Nat := if s.received.length = 0 then c.totalSize else s.total

/-- The copied chunks of the transfer that is going on after an action. -/
def ongoing (s : State τ) (transfer : List Call) : Act τ → List Call
  | .call _ c =>
    if Copies s c then (if c.transferEnd then [] else transfer ++ [c]) else transfer
  | .elsewhere _ => transfer

def trackedStep (s : State τ × List Call) (a : Act τ) : Option (State τ × List Call) :=
  (step sha256 mem verify s.1 a).map fun s' => (s', ongoing s.1 s.2 a)

end

def InBuffer (s : State τ × List Call) : Act τ → Prop
  | .call _ c => Copies s.1 c →
    s.1.received.length + c.data.length ≤ room s.1 c ∧ (s.2 = [] → s.1.received.length = 0)
  | .elsewhere _ => True

instance InBuffer.decide : (s : State τ × List Call) → (a : Act τ) → Decidable (InBuffer s a)
  | s, .call _ c => inferInstanceAs (Decidable (Copies s.1 c →
      s.1.received.length + c.data.length ≤ room s.1 c ∧ (s.2 = [] → s.1.received.length = 0)))
  | _, .elsewhere _ => isTrue trivial

/-- The sizes of the chunks of a transfer add up to no more than its first chunk that is not empty
has stated. -/
def Declares (transfer : List Call) : Prop :=
  ∀ first, transfer.find? (fun c => !c.data.isEmpty) = some first →
    (transfer.map fun c => c.data.length).sum ≤ first.totalSize

def DeclaresEnough (s : State τ × List Call) : Act τ → Prop
  | .call _ c => Copies s.1 c → Declares (s.2 ++ [c])
  | .elsewhere _ => True

structure Tracks (s : State τ) (transfer : List Call) : Prop where
  received : s.received = (transfer.map Call.data).flatten
  total : ∀ first, transfer.find? (fun c => !c.data.isEmpty) = some first →
    s.total = first.totalSize

section
variable {sha256 : Bytes → Hash} {mem : Mem} {verify : Verify} {s s' : State τ}
  {transfer : List Call}

theorem Tracks.length (h : Tracks s transfer) :
    s.received.length = (transfer.map fun c => c.data.length).sum := by
  rw [h.received, List.length_flatten, List.map_map]
  rfl

theorem Tracks.empty_iff (h : Tracks s transfer) :
    s.received.length = 0 ↔ transfer.find? (fun c => !c.data.isEmpty) = none := by
  rw [h.received, List.length_eq_zero_iff, List.flatten_eq_nil_iff, List.find?_eq_none]
  simp

theorem Tracks.declares_iff (h : Tracks s transfer) (c : Call) :
    Declares (transfer ++ [c]) ↔ s.received.length + c.data.length ≤ room s c := by
  unfold Declares room
  rw [List.find?_append, List.map_append, List.sum_append, ← h.length]
  simp only [List.map_cons, List.map_nil, List.sum_singleton]
  by_cases hzero : s.received.length = 0
  · rw [h.empty_iff.mp hzero, if_pos hzero, hzero, Option.none_or, Nat.zero_add]
    by_cases hdata : c.data = []
    · simp [hdata]
    · have hfind : [c].find? (fun c => !c.data.isEmpty) = some c := by simp [hdata]
      rw [hfind]
      simp
  · rw [if_neg hzero]
    obtain ⟨first, hfirst⟩ := Option.ne_none_iff_exists'.mp fun hnone => hzero (h.empty_iff.mpr hnone)
    rw [hfirst, Option.some_or, h.total first hfirst]
    simp

section
variable {tagOf : Nat → τ} {c : Call}

theorem ecall_refused (h : ¬ Copies s c) : ∃ status, status ≠ .upgradeNeedLeftData ∧
    ecallRestoreFromUpgrade sha256 mem verify tagOf s c = some (⟨status, false⟩, s) := by
  unfold ecallRestoreFromUpgrade idRestoreFromUpgrade
  by_cases hprocess : s.wl.upgradeStatus = .process
  · exact ⟨.upgradeWaitForNextEra, by simp, if_pos hprocess⟩
  have hmalloc : s.received.length = 0 ∧ ¬ encMalloc c.mallocBuffer c.totalSize = true :=
    Classical.not_imp.mp fun hserved => h ⟨hprocess, hserved⟩
  exact ⟨.mallocFailed, by simp, by rw [if_neg hprocess, if_pos hmalloc]⟩

theorem Copies.not_refused (h : Copies s c) :
    ¬ (s.received.length = 0 ∧ ¬ encMalloc c.mallocBuffer c.totalSize = true) :=
  fun hmalloc => hmalloc.2 (h.2 hmalloc.1)

theorem ecall_copies (h : Copies s c) (hend : c.transferEnd = false) :
    ecallRestoreFromUpgrade sha256 mem verify tagOf s c =
      some (⟨.upgradeNeedLeftData, false⟩, ⟨s.wl, room s c, s.received ++ c.data⟩) := by
  rw [ecallRestoreFromUpgrade, if_neg h.1, idRestoreFromUpgrade, if_neg h.not_refused]
  simp only [hend, Bool.false_eq_true, not_false_eq_true, if_true]
  rfl

theorem ecall_ends {reply : Reply} (h : Copies s c) (hend : c.transferEnd = true)
    (hcall : ecallRestoreFromUpgrade sha256 mem verify tagOf s c = some (reply, s')) :
    s'.received = [] := by
  rw [ecallRestoreFromUpgrade, if_neg h.1, idRestoreFromUpgrade, if_neg h.not_refused] at hcall
  simp only [hend, not_true_eq_false, if_false] at hcall
  split at hcall
  · cases hcall
  split at hcall
  · cases hcall
  cases hcall
  rfl

theorem step_call (hstep : step sha256 mem verify s (.call tagOf c) = some s') :
    (¬ Copies s c ∧ s' = s) ∨ (Copies s c ∧ c.transferEnd = true ∧ s'.received = []) ∨
      (Copies s c ∧ c.transferEnd = false ∧ s'.received = s.received ++ c.data ∧
        s'.total = room s c) := by
  simp only [step, Option.map_eq_some_iff] at hstep
  obtain ⟨⟨reply, s₁⟩, hcall, rfl⟩ := hstep
  by_cases hcopies : Copies s c
  · cases hend : c.transferEnd with
    | false =>
      rw [ecall_copies hcopies hend] at hcall
      cases hcall
      exact Or.inr (Or.inr ⟨hcopies, rfl, rfl, rfl⟩)
    | true => exact Or.inr (Or.inl ⟨hcopies, rfl, ecall_ends hcopies hend hcall⟩)
  · obtain ⟨status, -, hrefused⟩ := ecall_refused hcopies
    rw [hrefused] at hcall
    cases hcall
    exact Or.inl ⟨hcopies, rfl⟩

end

theorem Tracks.nil (h : s.received = []) : Tracks s [] := ⟨h, by simp⟩

theorem Tracks.append (h : Tracks s transfer) (c : Call)
    (hreceived : s'.received = s.received ++ c.data) (htotal : s'.total = room s c) :
    Tracks s' (transfer ++ [c]) := by
  refine ⟨by simp [hreceived, h.received], fun first hfirst => ?_⟩
  rw [htotal, room]
  rw [List.find?_append] at hfirst
  by_cases hzero : s.received.length = 0
  · rw [if_pos hzero]
    rw [h.empty_iff.mp hzero, Option.none_or] at hfirst
    obtain rfl : first = c := List.mem_singleton.mp (List.mem_of_find?_eq_some hfirst)
    rfl
  · rw [if_neg hzero]
    obtain ⟨f, hf⟩ := Option.ne_none_iff_exists'.mp fun hnone => hzero (h.empty_iff.mpr hnone)
    rw [hf, Option.some_or, Option.some_inj] at hfirst
    rw [h.total f hf, hfirst]

theorem Tracks.step (h : Tracks s transfer) {a : Act τ}
    (hstep : step sha256 mem verify s a = some s') : Tracks s' (ongoing s transfer a) := by
  cases a with
  | elsewhere wl =>
    cases hstep
    exact ⟨h.received, h.total⟩
  | call tagOf c =>
    rcases step_call hstep with ⟨hnot, rfl⟩ | ⟨hcopies, hend, hreceived⟩ |
      ⟨hcopies, hend, hreceived, htotal⟩
    · simpa only [ongoing, if_neg hnot] using h
    · simpa only [ongoing, if_pos hcopies, hend, if_true] using Tracks.nil hreceived
    · simpa only [ongoing, if_pos hcopies, hend, Bool.false_eq_true, if_false] using
        h.append c hreceived htotal

/-- In a tracked state the copy stays in the buffer exactly when the transfer with its chunk is
declared large enough; the offset of a new transfer is zero anyway. -/
theorem Tracks.inBuffer_iff (h : Tracks s transfer) (a : Act τ) :
    InBuffer (s, transfer) a ↔ DeclaresEnough (s, transfer) a := by
  cases a with
  | elsewhere wl => rfl
  | call tagOf c =>
    have hnew : transfer = [] → s.received.length = 0 := by
      rintro rfl
      simp [h.received]
    simp only [InBuffer, DeclaresEnough, h.declares_iff, and_iff_left hnew]

theorem Tracks.allowed_iff (h : Tracks s transfer) (acts : List (Act τ)) :
    Runs.Allowed (trackedStep sha256 mem verify) InBuffer (s, transfer) acts ↔
      Runs.Allowed (trackedStep sha256 mem verify) DeclaresEnough (s, transfer) acts := by
  induction acts generalizing s transfer with
  | nil => rfl
  | cons a acts ih =>
    simp only [Runs.Allowed, h.inBuffer_iff, trackedStep]
    cases hstep : UpgradeBuffer.step sha256 mem verify s a with
    | none => rfl
    | some s' => simp only [Option.map_some, ih (h.step hstep)]

end

/-- From the start of the enclave on, no copy leaves the buffer exactly as long as every transfer
so far adds up to no more than it has declared with its first chunk that is not empty. -/
theorem upgrade_in_buffer_iff (sha256 : Bytes → Hash) (mem : Mem) (verify : Verify) (s : State τ)
    (hstart : s.received = []) (acts : List (Act τ)) :
    Runs.Allowed (trackedStep sha256 mem verify) InBuffer (s, []) acts ↔
      Runs.Allowed (trackedStep sha256 mem verify) DeclaresEnough (s, []) acts :=
  (Tracks.nil hstart).allowed_iff acts

def transferOf (totalSize : Nat) : List (Act Unit) :=
  [.call (fun _ => ()) ⟨str "[1", totalSize, false, true, quietEnv⟩,
    .call (fun _ => ()) ⟨str ",2]", totalSize, true, true, quietEnv⟩]

theorem upgrade_in_buffer_five :
    Runs.Allowed (trackedStep Sha256.sha256 ⟨fun _ _ => 0⟩ zeroVerify) DeclaresEnough
      (emptyState, []) (transferOf 5) :=
  (upgrade_in_buffer_iff Sha256.sha256 ⟨fun _ _ => 0⟩ zeroVerify emptyState rfl (transferOf 5)).mp
    (by decide +kernel)

theorem upgrade_overruns_buffer :
    ¬ ∀ (s : State Unit), s.received = [] → ∀ acts : List (Act Unit),
      Runs.Allowed (trackedStep Sha256.sha256 ⟨fun _ _ => 0⟩ zeroVerify) InBuffer (s, []) acts :=
  fun hclaim => absurd (hclaim emptyState rfl (transferOf 1)) (by decide +kernel)

end CrustSworker.UpgradeBuffer
