import CrustSworker.ReportHeight
import CrustSworker.UpgradeExit

/-!
# The reporting loop

`work_report_loop` asks the enclave for a report once in an era. It keeps the height from which on
the next report is due, rounds the height of the chain down to a whole era, and goes on with the
next era once the ecall has been tried. While an upgrade has stopped the reports it lets one try in
twenty-one through. Whatever the chain answers, the enclave's own check of the height is never in
the way of these calls, and they never run into its gap.
-/

namespace CrustSworker.ReportLoop

open Report ReportHeight
open UpgradeExit (UpgradeStatus)

variable {τ : Type}

def reportBlockHeightBase : UInt64 := 300
def blockInterval : Nat := 6
def wrWaitTime : Nat := blockInterval / 2
def stopTimeout : Nat := 10 * blockInterval
def stopTryouts : Int := (stopTimeout / wrWaitTime : Nat)

structure LoopState where
  offlineBaseHeight : UInt64
  targetBlockHeight : UInt64
  stopTryout : Int

def LoopState.start (offlineChainMode : Bool) (blockHeader : Option UInt64) : LoopState where
  offlineBaseHeight := reportBlockHeightBase
  targetBlockHeight :=
    match blockHeader with
    | none => reportBlockHeightBase
    | some number =>
      if offlineChainMode then reportBlockHeightBase
      else (number / reportBlockHeightBase + 1) * reportBlockHeightBase
  stopTryout := stopTryouts

/-- What a round gets from the app and from the chain. -/
structure Seen where
  upgradeStatus : UpgradeStatus
  blockHeader : Option UInt64
  blockHash : Bytes

def zeroHashText : Bytes := List.replicate 64 48

def offlineHash : Bytes := str "1" ++ List.replicate 62 48 ++ str "1"

def LoopState.stopCheck (s : LoopState) (status : UpgradeStatus) : Bool × LoopState :=
  if status = .stopWorkreport then
    if s.stopTryout - 1 < 0 then (true, { s with stopTryout := stopTryouts })
    else (false, { s with stopTryout := s.stopTryout - 1 })
  else (true, s)

/-- A round, with the height and the hash for the ecall if there is one. -/
def LoopState.round (offlineChainMode : Bool) (s : LoopState) (seen : Seen) :
    LoopState × Option (UInt64 × Bytes) :=
  let s' := (s.stopCheck seen.upgradeStatus).2
  if ¬ (s.stopCheck seen.upgradeStatus).1 then (s', none)
  else if offlineChainMode then
    ({ s' with offlineBaseHeight := s'.offlineBaseHeight + reportBlockHeightBase },
      some (s'.offlineBaseHeight, offlineHash))
  else
    match seen.blockHeader with
    | none => (s', none)
    | some number =>
      let era := number / reportBlockHeightBase * reportBlockHeightBase
      if number < s'.targetBlockHeight then (s', none)
      else if seen.blockHash = [] ∨ seen.blockHash = zeroHashText then (s', none)
      else
        ({ s' with targetBlockHeight := era + reportBlockHeightBase },
          some (era, seen.blockHash))

/-- A round with what happens around it: whether the ecall gets into the enclave, what the enclave
has done since the last report, and its environment. An upgrade report or a restore would record a
height of its own, so neither is among what it has done. -/
structure Turn (τ : Type) where
  seen : Seen
  invoked : Bool
  idle : Workload τ → Workload τ
  idle_height : ∀ wl, (idle wl).reportHeight = wl.reportHeight
  env : ReportEnv
  upload : Bytes → CrustStatus

def calls (offlineChainMode : Bool) : LoopState → List (Turn τ) → List (Call τ)
  | _, [] => []
  | s, t :: ts =>
    if t.seen.upgradeStatus = .exit then []
    else
      match (s.round offlineChainMode t.seen).2 with
      | none => calls offlineChainMode (s.round offlineChainMode t.seen).1 ts
      | some (height, hash) =>
        if t.invoked then
          ⟨t.idle, t.idle_height, t.env, t.upload, hash, height⟩ ::
            calls offlineChainMode (s.round offlineChainMode t.seen).1 ts
        else calls offlineChainMode (s.round offlineChainMode t.seen).1 ts

/-! ### The next height -/

def LoopState.due (offlineChainMode : Bool) (s : LoopState) : UInt64 :=
  if offlineChainMode then s.offlineBaseHeight else s.targetBlockHeight

def Small (offlineChainMode : Bool) (s : LoopState) (ts : List (Turn τ)) : Prop :=
  if offlineChainMode then s.offlineBaseHeight.toNat + eraLength * ts.length < 2 ^ 64
  else ∀ t ∈ ts, ∀ number, t.seen.blockHeader = some number → number.toNat < 2 ^ 63

def LoopState.OnEra (offlineChainMode : Bool) (s : LoopState) : Prop :=
  eraLength ∣ (s.due offlineChainMode).toNat ∧ 0 < (s.due offlineChainMode).toNat

section
variable {offline : Bool} {s : LoopState}

theorem base_toNat : reportBlockHeightBase.toNat = eraLength := by decide

theorem era_toNat (n : UInt64) :
    (n / reportBlockHeightBase * reportBlockHeightBase).toNat =
      n.toNat / eraLength * eraLength := by
  have hle := Nat.div_mul_le_self n.toNat eraLength
  have hn := n.toNat_lt
  rw [UInt64.toNat_mul, UInt64.toNat_div, base_toNat, Nat.mod_eq_of_lt (by omega)]

theorem next_toNat {n : UInt64} (hn : n.toNat + eraLength < 2 ^ 64) :
    (n + reportBlockHeightBase).toNat = n.toNat + eraLength := by
  rw [UInt64.toNat_add, base_toNat, Nat.mod_eq_of_lt hn]

theorem due_stopCheck (status : UpgradeStatus) :
    (s.stopCheck status).2.due offline = s.due offline := by
  unfold LoopState.stopCheck LoopState.due
  split_ifs <;> rfl

/-- All that a round can do: nothing behind the test of the status, or a call and the height after
it. -/
theorem round_cases (offline : Bool) (s : LoopState) (seen : Seen) :
    s.round offline seen = ((s.stopCheck seen.upgradeStatus).2, none) ∨
      (s.stopCheck seen.upgradeStatus).1 = true ∧ offline = true ∧
        s.round offline seen =
          ({ (s.stopCheck seen.upgradeStatus).2 with
              offlineBaseHeight := s.due true + reportBlockHeightBase },
            some (s.due true, offlineHash)) ∨
      (s.stopCheck seen.upgradeStatus).1 = true ∧ offline = false ∧
        ∃ number, seen.blockHeader = some number ∧ s.due false ≤ number ∧
          s.round offline seen =
            ({ (s.stopCheck seen.upgradeStatus).2 with
                targetBlockHeight :=
                  number / reportBlockHeightBase * reportBlockHeightBase + reportBlockHeightBase },
              some (number / reportBlockHeightBase * reportBlockHeightBase, seen.blockHash)) := by
  by_cases hc : (s.stopCheck seen.upgradeStatus).1 = true
  · cases offline with
    | true =>
      have hd := @due_stopCheck true s seen.upgradeStatus
      refine Or.inr (Or.inl ⟨hc, rfl, ?_⟩)
      rw [← hd]
      simp [LoopState.round, LoopState.due, hc]
    | false =>
      have hd := @due_stopCheck false s seen.upgradeStatus
      cases hb : seen.blockHeader with
      | none => exact Or.inl (by simp [LoopState.round, hc, hb])
      | some number =>
        simp only [LoopState.due, Bool.false_eq_true, ↓reduceIte] at hd ⊢
        by_cases hlt : number < s.targetBlockHeight
        · exact Or.inl (by simp [LoopState.round, hc, hb, hd, hlt])
        by_cases hz : seen.blockHash = [] ∨ seen.blockHash = zeroHashText
        · exact Or.inl (by simp [LoopState.round, hc, hb, hd, hlt, hz])
        · refine Or.inr (Or.inr ⟨hc, trivial, number, rfl, UInt64.not_lt.mp hlt, ?_⟩)
          simp [LoopState.round, hc, hb, hd, hlt, hz]
  · exact Or.inl (by simp [LoopState.round, hc])

theorem offline_round {seen : Seen} {h : UInt64} {hash : Bytes}
    (hr : (s.round true seen).2 = some (h, hash)) :
    h = s.due true ∧ (s.round true seen).1.due true = h + reportBlockHeightBase := by
  obtain hn | ⟨-, -, hcall⟩ | ⟨-, hfalse, -⟩ := round_cases true s seen
  · rw [hn] at hr
    cases hr
  · rw [hcall] at hr ⊢
    cases hr
    exact ⟨rfl, rfl⟩
  · cases hfalse

theorem online_round {seen : Seen} {h : UInt64} {hash : Bytes}
    (hr : (s.round false seen).2 = some (h, hash)) :
    ∃ number, seen.blockHeader = some number ∧ s.due false ≤ number ∧
      h = number / reportBlockHeightBase * reportBlockHeightBase ∧
      (s.round false seen).1.due false = h + reportBlockHeightBase := by
  obtain hn | ⟨-, htrue, -⟩ | ⟨-, -, number, hb, hle, hcall⟩ := round_cases false s seen
  · rw [hn] at hr
    cases hr
  · cases htrue
  · rw [hcall] at hr ⊢
    cases hr
    exact ⟨number, hb, hle, rfl, rfl⟩

theorem due_round_none {seen : Seen} (hr : (s.round offline seen).2 = none) :
    (s.round offline seen).1.due offline = s.due offline := by
  obtain hn | ⟨-, -, hcall⟩ | ⟨-, -, number, -, -, hcall⟩ := round_cases offline s seen
  · rw [hn]
    exact due_stopCheck _
  · rw [hcall] at hr
    cases hr
  · rw [hcall] at hr
    cases hr

theorem round_era {t : Turn τ} {ts : List (Turn τ)} (he : s.OnEra offline)
    (hs : Small offline s (t :: ts)) {h : UInt64} {hash : Bytes}
    (hr : (s.round offline t.seen).2 = some (h, hash)) :
    (s.due offline).toNat ≤ h.toNat ∧ eraLength ∣ h.toNat ∧
      ((s.round offline t.seen).1.due offline).toNat = h.toNat + eraLength ∧
      h.toNat + eraLength < 2 ^ 64 := by
  obtain ⟨hdvd, hpos⟩ := he
  cases offline with
  | true =>
    obtain ⟨rfl, hnext⟩ := offline_round hr
    have hlt : (s.due true).toNat + eraLength < 2 ^ 64 := by
      simp only [Small, ↓reduceIte, List.length_cons] at hs
      simp only [LoopState.due, ↓reduceIte]
      have : eraLength * (ts.length + 1) = eraLength * ts.length + eraLength := by ring
      omega
    refine ⟨Nat.le_refl _, hdvd, ?_, hlt⟩
    rw [hnext, next_toNat hlt]
  | false =>
    obtain ⟨number, hb, hle, rfl, hnext⟩ := online_round hr
    have hn := hs t List.mem_cons_self number hb
    have hle' : (s.due false).toNat ≤ number.toNat := UInt64.le_iff_toNat_le.mp hle
    have hera := era_toNat number
    have hround := Nat.div_mul_le_self number.toNat eraLength
    have hlt : (number / reportBlockHeightBase * reportBlockHeightBase).toNat + eraLength
        < 2 ^ 64 := by
      have : eraLength < 2 ^ 63 := by decide
      omega
    refine ⟨?_, ?_, ?_, hlt⟩
    · rw [hera]
      obtain ⟨k, hk⟩ := hdvd
      have hmono : (s.due false).toNat / eraLength ≤ number.toNat / eraLength :=
        Nat.div_le_div_right hle'
      calc (s.due false).toNat = (s.due false).toNat / eraLength * eraLength :=
            (Nat.div_mul_cancel ⟨k, hk⟩).symm
        _ ≤ number.toNat / eraLength * eraLength := Nat.mul_le_mul_right _ hmono
    · rw [hera]
      exact Nat.dvd_mul_left _ _
    · rw [hnext, next_toNat hlt]

theorem onEra_start {header : Option UInt64}
    (hh : ∀ number, header = some number → number.toNat < 2 ^ 63) :
    (LoopState.start offline header).OnEra offline := by
  have hbase : eraLength ∣ reportBlockHeightBase.toNat ∧ 0 < reportBlockHeightBase.toNat := by
    decide
  unfold LoopState.OnEra LoopState.due LoopState.start
  cases offline with
  | true => simpa using hbase
  | false =>
    cases header with
    | none => simpa using hbase
    | some number =>
      have hn := hh number rfl
      have hround := Nat.div_mul_le_self number.toNat eraLength
      have hera : ((number / reportBlockHeightBase + 1) * reportBlockHeightBase).toNat =
          (number.toNat / eraLength + 1) * eraLength := by
        have hlt : (number.toNat / eraLength + 1) * eraLength < 2 ^ 64 := by
          have : eraLength < 2 ^ 63 := by decide
          rw [Nat.add_mul]
          omega
        have hone : number.toNat / eraLength + 1 < 2 ^ 64 := by
          have := Nat.div_le_self number.toNat eraLength
          omega
        rw [UInt64.toNat_mul, UInt64.toNat_add, UInt64.toNat_div, base_toNat]
        rw [show (1 : UInt64).toNat = 1 from rfl, Nat.mod_eq_of_lt hone, Nat.mod_eq_of_lt hlt]
      simp only [Bool.false_eq_true, ↓reduceIte]
      rw [hera]
      exact ⟨Nat.dvd_mul_left _ _, Nat.mul_pos (Nat.succ_pos _) (by decide)⟩

theorem small_round_none {t : Turn τ} {ts : List (Turn τ)} (hs : Small offline s (t :: ts))
    (hr : (s.round offline t.seen).2 = none) : Small offline (s.round offline t.seen).1 ts := by
  have hd := due_round_none hr
  cases offline with
  | true =>
    simp only [LoopState.due, ↓reduceIte] at hd
    simp only [Small, ↓reduceIte, List.length_cons, hd] at hs ⊢
    have : eraLength * (ts.length + 1) = eraLength * ts.length + eraLength := by ring
    omega
  | false => exact fun t' ht' => hs t' (List.mem_cons_of_mem _ ht')

theorem small_round_some {t : Turn τ} {ts : List (Turn τ)} (he : s.OnEra offline)
    (hs : Small offline s (t :: ts)) {h : UInt64} {hash : Bytes}
    (hr : (s.round offline t.seen).2 = some (h, hash)) :
    Small offline (s.round offline t.seen).1 ts := by
  obtain ⟨-, -, hnext, -⟩ := round_era he hs hr
  cases offline with
  | true =>
    obtain ⟨rfl, -⟩ := offline_round hr
    simp only [LoopState.due, ↓reduceIte] at hnext
    simp only [Small, ↓reduceIte, List.length_cons, hnext] at hs ⊢
    have : eraLength * (ts.length + 1) = eraLength * ts.length + eraLength := by ring
    omega
  | false => exact fun t' ht' => hs t' (List.mem_cons_of_mem _ ht')

theorem onEra_round_some {t : Turn τ} {ts : List (Turn τ)} (he : s.OnEra offline)
    (hs : Small offline s (t :: ts)) {h : UInt64} {hash : Bytes}
    (hr : (s.round offline t.seen).2 = some (h, hash)) :
    (s.round offline t.seen).1.OnEra offline := by
  obtain ⟨-, hdvd, hnext, -⟩ := round_era he hs hr
  unfold LoopState.OnEra
  rw [hnext]
  exact ⟨Nat.dvd_add hdvd (Nat.dvd_refl _), Nat.add_pos_right _ (by decide)⟩

theorem onEra_round_none {t : Turn τ} (he : s.OnEra offline)
    (hr : (s.round offline t.seen).2 = none) : (s.round offline t.seen).1.OnEra offline := by
  unfold LoopState.OnEra
  rw [due_round_none hr]
  exact he

end

/-! ### The heights of the calls -/

theorem calls_on_eras {offline : Bool} (ts : List (Turn τ)) (s : LoopState) (he : s.OnEra offline)
    (hs : Small offline s ts) :
    (∀ c ∈ calls offline s ts, eraLength ∣ c.blockHeight.toNat) ∧
      (∀ c ∈ calls offline s ts, (s.due offline).toNat ≤ c.blockHeight.toNat) ∧
      ((calls offline s ts).map (·.blockHeight)).Pairwise GapEra := by
  induction ts generalizing s with
  | nil => simp [calls]
  | cons t ts ih =>
    unfold calls
    by_cases hexit : t.seen.upgradeStatus = .exit
    · simp [hexit]
    · rw [if_neg hexit]
      cases hr : (s.round offline t.seen).2 with
      | none =>
        have ih' := ih _ (onEra_round_none he hr) (small_round_none hs hr)
        rw [due_round_none hr] at ih'
        exact ih'
      | some res =>
        obtain ⟨h, hash⟩ := res
        obtain ⟨hdue, hdvd, hnext, -⟩ := round_era he hs hr
        obtain ⟨ih1, ih2, ih3⟩ := ih _ (onEra_round_some he hs hr) (small_round_some he hs hr)
        rw [hnext] at ih2
        have hall : ∀ c ∈ calls offline (s.round offline t.seen).1 ts,
            (s.due offline).toNat ≤ c.blockHeight.toNat := by
          intro c hc
          have := ih2 c hc
          omega
        dsimp only
        split_ifs
        · refine ⟨?_, ?_, ?_⟩
          · rw [List.forall_mem_cons]
            exact ⟨hdvd, ih1⟩
          · rw [List.forall_mem_cons]
            exact ⟨hdue, hall⟩
          · rw [List.map_cons, List.pairwise_cons]
            refine ⟨?_, ih3⟩
            intro h' hm
            obtain ⟨c, hc, rfl⟩ := List.mem_map.mp hm
            exact ih2 c hc
        · exact ⟨ih1, hall, ih3⟩

/-! ### What the enclave makes of them -/

section
variable (sha256 : Bytes → Hash) (mem : Mem)

def Accepted : Workload τ → List (Call τ) → Prop
  | _, [] => True
  | wl, c :: cs =>
    heightExpired (c.idle wl).reportHeight c.blockHeight = false ∧
      match c.exec sha256 mem (c.idle wl) with
      | none => True
      | some (_, wl') => Accepted wl' cs

theorem not_expired_of_gap {r h : UInt64} (hg : GapEra r h) : heightExpired r h = false := by
  have hr := r.toNat_lt
  have hh := h.toNat_lt
  simp only [GapEra, eraLength] at hg
  rw [heightExpired_eq_false]
  refine ⟨?_, ?_⟩
  · rintro rfl
    simp at hg
  · simp only [eraLength]
    omega

theorem not_backward_of_gap {c : Call τ} {wl : Workload τ}
    (hg : GapEra wl.reportHeight c.blockHeight) : ¬ c.Backward wl := by
  rintro ⟨-, -, hlt, -⟩
  simp only [GapEra] at hg
  omega

theorem exec_recorded {c : Call τ} {wl wl' : Workload τ} {st : CrustStatus}
    (hr : c.exec sha256 mem wl = some (st, wl')) :
    wl'.reportHeight = wl.reportHeight ∨ wl'.reportHeight = c.blockHeight := by
  cases hp : c.passes wl with
  | false =>
    obtain ⟨st', he⟩ := c.exec_refused sha256 mem hp
    rw [he] at hr
    cases hr
    exact Or.inl rfl
  | true => exact Or.inr (c.exec_height sha256 mem hp hr)

theorem accepted_of_pairwise (cs : List (Call τ)) (wl : Workload τ)
    (hfirst : ∀ c ∈ cs, GapEra wl.reportHeight c.blockHeight)
    (hp : (cs.map (·.blockHeight)).Pairwise GapEra) :
    Accepted sha256 mem wl cs ∧ Forward sha256 mem wl cs := by
  induction cs generalizing wl with
  | nil => exact ⟨trivial, trivial⟩
  | cons c cs ih =>
    rw [List.forall_mem_cons] at hfirst
    rw [List.map_cons, List.pairwise_cons] at hp
    obtain ⟨hc, hcs⟩ := hfirst
    obtain ⟨hafter, hp⟩ := hp
    have hg : GapEra (c.idle wl).reportHeight c.blockHeight := by
      rw [c.idle_height]
      exact hc
    have hexpired := not_expired_of_gap hg
    have hforward := not_backward_of_gap hg
    unfold Accepted Forward
    cases he : c.exec sha256 mem (c.idle wl) with
    | none => exact ⟨⟨hexpired, trivial⟩, ⟨hforward, trivial⟩⟩
    | some res =>
      obtain ⟨st, wl'⟩ := res
      have hnext : ∀ c' ∈ cs, GapEra wl'.reportHeight c'.blockHeight := by
        intro c' hc'
        obtain hr | hr := exec_recorded sha256 mem he
        · rw [hr, c.idle_height]
          exact hcs c' hc'
        · rw [hr]
          exact hafter _ (List.mem_map_of_mem hc')
      obtain ⟨ha, hf⟩ := ih wl' hnext hp
      exact ⟨⟨hexpired, ha⟩, ⟨hforward, hf⟩⟩

theorem loop_calls_accepted {offline : Bool} {s : LoopState} {ts : List (Turn τ)} (wl : Workload τ)
    (he : s.OnEra offline) (hs : Small offline s ts) (hg : GapEra wl.reportHeight (s.due offline)) :
    Accepted sha256 mem wl (calls offline s ts) ∧
      (wl.reportHeight :: (trace sha256 mem wl (calls offline s ts)).1).IsChain GapEra ∧
      (wl.reportHeight :: (trace sha256 mem wl (calls offline s ts)).2).IsChain (· ≤ ·) := by
  obtain ⟨-, hdue, hp⟩ := calls_on_eras ts s he hs
  have hfirst : ∀ c ∈ calls offline s ts, GapEra wl.reportHeight c.blockHeight := by
    intro c hc
    have := hdue c hc
    simp only [GapEra] at hg ⊢
    omega
  obtain ⟨ha, hf⟩ := accepted_of_pairwise sha256 mem _ wl hfirst hp
  exact ⟨ha, (trace_chain_iff sha256 mem wl _).mpr hf⟩

/-- The loop asks for reports on whole eras, one at most for an era. -/
theorem loop_reports_advance (offline : Bool) (header : Option UInt64) (ts : List (Turn τ))
    (wl : Workload τ) (hh : ∀ number, header = some number → number.toNat < 2 ^ 63)
    (hs : Small offline (LoopState.start offline header) ts) :
    (∀ c ∈ calls offline (LoopState.start offline header) ts,
        eraLength ∣ c.blockHeight.toNat) ∧
      ((calls offline (LoopState.start offline header) ts).map (·.blockHeight)).Pairwise GapEra ∧
      (GapEra wl.reportHeight ((LoopState.start offline header).due offline) →
        Accepted sha256 mem wl (calls offline (LoopState.start offline header) ts) ∧
        (wl.reportHeight ::
          (trace sha256 mem wl (calls offline (LoopState.start offline header) ts)).1).IsChain
            GapEra ∧
        (wl.reportHeight ::
          (trace sha256 mem wl (calls offline (LoopState.start offline header) ts)).2).IsChain
            (· ≤ ·)) := by
  obtain ⟨hera, -, hp⟩ := calls_on_eras ts _ (onEra_start hh) hs
  exact ⟨hera, hp, fun hg => loop_calls_accepted sha256 mem wl (onEra_start hh) hs hg⟩

end

theorem resting_height (wl : Workload Unit) : (id wl).reportHeight = wl.reportHeight := rfl

def turnAt (number : UInt64) : Turn Unit where
  seen := ⟨.none, some number, str "ab"⟩
  invoked := true
  idle := id
  idle_height := resting_height
  env := ⟨true, true, true, true, true, fun _ _ => none⟩
  upload := fun _ => .success

def threeTurns : List (Turn Unit) := [turnAt 1250, turnAt 1270, turnAt 1510]

def freshWorkload : Workload Unit :=
  Workload.init ⟨⟨List.replicate 64 0, rfl⟩, ⟨List.replicate 32 0, rfl⟩⟩ ⟨List.replicate 64 0, rfl⟩

theorem loop_reports_advance_three :
    (calls false (LoopState.start false (some 1000)) threeTurns).map (·.blockHeight) =
        [1200, 1500] ∧
      Accepted Sha256.sha256 ⟨fun _ _ => 0⟩ freshWorkload
        (calls false (LoopState.start false (some 1000)) threeTurns) := by
  have hsmall : Small false (LoopState.start false (some 1000)) threeTurns := by
    intro t ht number hn
    simp only [threeTurns, List.mem_cons, List.not_mem_nil, or_false] at ht
    obtain rfl | rfl | rfl := ht
    · cases hn
      decide
    · cases hn
      decide
    · cases hn
      decide
  have hheader : ∀ number, (some 1000 : Option UInt64) = some number → number.toNat < 2 ^ 63 := by
    intro number hn
    cases hn
    decide
  obtain ⟨-, -, haccepted⟩ := loop_reports_advance Sha256.sha256 ⟨fun _ _ => 0⟩ false (some 1000)
    threeTurns freshWorkload hheader hsmall
  exact ⟨by decide, (haccepted (by decide)).1⟩

/-! ### The reports that an upgrade stops -/

def stopped (ts : List (Turn τ)) : Nat :=
  ts.countP fun t => decide (t.seen.upgradeStatus = .stopWorkreport)

theorem stopCheck_cases {s : LoopState} (h0 : 0 ≤ s.stopTryout) (status : UpgradeStatus) :
    (status = .stopWorkreport ∧ s.stopTryout = 0 ∧
        s.stopCheck status = (true, { s with stopTryout := stopTryouts })) ∨
      (status = .stopWorkreport ∧ 0 < s.stopTryout ∧
        s.stopCheck status = (false, { s with stopTryout := s.stopTryout - 1 })) ∨
      status ≠ .stopWorkreport ∧ s.stopCheck status = (true, s) := by
  unfold LoopState.stopCheck
  split_ifs with hstop hlt
  · exact Or.inl ⟨hstop, by omega, rfl⟩
  · exact Or.inr (Or.inl ⟨hstop, by omega, rfl⟩)
  · exact Or.inr (Or.inr ⟨hstop, rfl⟩)

theorem round_tryout {offline : Bool} {s : LoopState} (seen : Seen) :
    (s.round offline seen).1.stopTryout = (s.stopCheck seen.upgradeStatus).2.stopTryout := by
  obtain hn | ⟨-, -, hcall⟩ | ⟨-, -, number, -, -, hcall⟩ := round_cases offline s seen
  · rw [hn]
  · rw [hcall]
  · rw [hcall]

theorem round_calls {offline : Bool} {s : LoopState} {seen : Seen} {h : UInt64 × Bytes}
    (hr : (s.round offline seen).2 = some h) : (s.stopCheck seen.upgradeStatus).1 = true := by
  obtain hn | ⟨hc, -⟩ | ⟨hc, -⟩ := round_cases offline s seen
  · rw [hn] at hr
    cases hr
  · exact hc
  · exact hc

theorem round_pays {offline : Bool} {s : LoopState} (h0 : 0 ≤ s.stopTryout)
    (h20 : s.stopTryout ≤ stopTryouts) (seen : Seen) :
    0 ≤ (s.round offline seen).1.stopTryout ∧
      (s.round offline seen).1.stopTryout ≤ stopTryouts ∧
      s.stopTryout + (if (s.round offline seen).2.isSome then stopTryouts + 1 else 0) ≤
        (s.round offline seen).1.stopTryout +
          if seen.upgradeStatus = .stopWorkreport then 1 else stopTryouts + 1 := by
  have hpos : (stopTryouts : Int) = 20 := by decide
  have hcall : (s.round offline seen).2.isSome = true →
      (s.stopCheck seen.upgradeStatus).1 = true := by
    intro h
    obtain ⟨res, hr⟩ := Option.isSome_iff_exists.mp h
    exact round_calls hr
  rw [round_tryout]
  obtain ⟨hstop, h, hc⟩ | ⟨hstop, h, hc⟩ | ⟨hstop, hc⟩ := stopCheck_cases h0 seen.upgradeStatus
  · rw [hc, if_pos hstop]
    dsimp only
    split_ifs
    · omega
    · omega
  · rw [hc] at hcall ⊢
    rw [if_pos hstop, if_neg (by simpa using hcall)]
    dsimp only
    omega
  · rw [hc, if_neg hstop]
    dsimp only
    split_ifs
    · omega
    · omega

theorem calls_length_le {offline : Bool} (ts : List (Turn τ)) (s : LoopState)
    (h0 : 0 ≤ s.stopTryout) (h20 : s.stopTryout ≤ stopTryouts) :
    s.stopTryout + (stopTryouts + 1) * ((calls offline s ts).length : Int) ≤
      stopped ts + (stopTryouts + 1) * ((ts.length : Int) - stopped ts) + stopTryouts := by
  have hpos : (stopTryouts : Int) = 20 := by decide
  induction ts generalizing s with
  | nil =>
    simp only [calls, stopped, List.length_nil, List.countP_nil]
    omega
  | cons t ts ih =>
    obtain ⟨h0', h20', hpay⟩ := @round_pays offline s h0 h20 t.seen
    have ih' := ih _ h0' h20'
    have hle : stopped ts ≤ ts.length := List.countP_le_length
    have hcount : (stopped (t :: ts) : Int) =
        stopped ts + if t.seen.upgradeStatus = .stopWorkreport then 1 else 0 := by
      unfold stopped
      rw [List.countP_cons]
      split_ifs <;> simp_all
    have hlength : ((t :: ts).length : Int) = ts.length + 1 := by simp
    rw [hcount, hlength]
    simp only [hpos] at hpay ih' ⊢
    unfold calls
    by_cases hexit : t.seen.upgradeStatus = .exit
    · rw [if_pos hexit, if_neg (by rw [hexit]; exact UpgradeStatus.noConfusion)]
      simp only [List.length_nil]
      omega
    · rw [if_neg hexit]
      cases hr : (s.round offline t.seen).2 with
      | none =>
        rw [hr, Option.isSome_none, if_neg Bool.false_ne_true] at hpay
        dsimp only
        split_ifs at hpay ⊢
        · omega
        · omega
      | some res =>
        rw [hr, Option.isSome_some, if_pos rfl] at hpay
        dsimp only
        have hcalls : ∀ c : Call τ,
            ((c :: calls offline (s.round offline t.seen).1 ts).length : Int) =
              (calls offline (s.round offline t.seen).1 ts).length + 1 := by simp
        split_ifs at hpay ⊢
        · rw [hcalls]
          omega
        · rw [hcalls]
          omega
        · omega
        · omega

/-- While an upgrade stops the reports, the loop gets one call for twenty-one rounds at most. -/
theorem stopped_loop_calls (offline : Bool) (header : Option UInt64) (ts : List (Turn τ)) :
    21 * (calls offline (LoopState.start offline header) ts).length ≤
      stopped ts + 21 * (ts.length - stopped ts) := by
  have hpos : (stopTryouts : Int) = 20 := by decide
  have hstart : (LoopState.start offline header).stopTryout = stopTryouts := rfl
  have h := @calls_length_le τ offline ts (LoopState.start offline header)
    (by rw [hstart]; decide) (Int.le_of_eq hstart)
  have hle : stopped ts ≤ ts.length := List.countP_le_length
  rw [hstart, hpos] at h
  omega

end CrustSworker.ReportLoop
