import Mathlib.Data.List.Induction
import Mathlib.Tactic.Ring
import Mathlib.Tactic.Linarith
import Mathlib.Tactic.IntervalCases

/-!
# Byte strings and decimal numerals

A C++ `std::string` and a raw `uint8_t` buffer are both lists of bytes here.
`decNat` and `decInt` are the texts `std::to_string` produces. The numerals are
canonical, so the value and the shape of a text determine each other; the last
theorem decides when a numeral of a multiple of `d` followed directly by a signed
numeral, with no separator, can be read in only one way.
-/

namespace CrustSworker

abbrev Bytes := List UInt8

def str (s : String) : Bytes := s.toList.map Char.toUInt8

def IsDigit (c : UInt8) : Prop := 48 ≤ c ∧ c ≤ 57

instance (c : UInt8) : Decidable (IsDigit c) := inferInstanceAs (Decidable (_ ∧ _))

def decNat (n : Nat) : Bytes := (Nat.toDigits 10 n).map Char.toUInt8

def decInt (n : Int) : Bytes :=
  if n < 0 then 45 :: decNat n.natAbs else decNat n.natAbs

def decVal (s : Bytes) : Nat := s.foldl (fun a c => a * 10 + (c.toNat - 48)) 0

theorem decNat_of_lt {n : Nat} (hn : n < 10) : decNat n = [UInt8.ofNat (48 + n)] := by
  interval_cases n <;> decide

theorem decNat_step {n d : Nat} (hn : 0 < n) (hd : d < 10) :
    decNat (10 * n + d) = decNat n ++ [UInt8.ofNat (48 + d)] := by
  have h := Nat.toDigits_append_toDigits (b := 10) (n := n) (d := d) (by decide) hn hd
  unfold decNat
  rw [← h, List.map_append]
  exact congrArg _ (decNat_of_lt hd)

/-- Numerals grow by one digit at a time: the induction every fact below uses. -/
theorem decNat_induction {P : Nat → Bytes → Prop}
    (one : ∀ n, n < 10 → P n [UInt8.ofNat (48 + n)])
    (more : ∀ n d, 0 < n → d < 10 → P n (decNat n) →
      P (10 * n + d) (decNat n ++ [UInt8.ofNat (48 + d)]))
    (n : Nat) : P n (decNat n) := by
  induction n using Nat.strong_induction_on with
  | _ n ih =>
    by_cases hn : n < 10
    · rw [decNat_of_lt hn]
      exact one n hn
    · have hq : 0 < n / 10 := by omega
      have hr : n % 10 < 10 := Nat.mod_lt _ (by decide)
      have he : 10 * (n / 10) + n % 10 = n := by omega
      have h := more (n / 10) (n % 10) hq hr (ih (n / 10) (by omega))
      rw [← decNat_step hq hr, he] at h
      exact h

theorem isDigit_ofNat {d : Nat} (hd : d < 10) : IsDigit (UInt8.ofNat (48 + d)) := by
  interval_cases d <;> decide

theorem toNat_digit {d : Nat} (hd : d < 10) : (UInt8.ofNat (48 + d)).toNat - 48 = d := by
  interval_cases d <;> decide

theorem decNat_digits (n : Nat) : ∀ c ∈ decNat n, IsDigit c := by
  refine decNat_induction (P := fun _ s => ∀ c ∈ s, IsDigit c) ?_ ?_ n
  · intro n hn c hc
    rw [List.mem_singleton.mp hc]
    exact isDigit_ofNat hn
  · intro n d _ hd ih c hc
    rcases List.mem_append.mp hc with h | h
    · exact ih c h
    · rw [List.mem_singleton.mp h]
      exact isDigit_ofNat hd

theorem decNat_ne_nil (n : Nat) : decNat n ≠ [] := by
  refine decNat_induction (P := fun _ s => s ≠ []) ?_ ?_ n
  · intro n _
    simp
  · intro n d _ _ _
    simp

theorem decNat_length_le {n k : Nat} (h : n < 10 ^ (k + 1)) : (decNat n).length ≤ k + 1 := by
  induction k generalizing n with
  | zero =>
    rw [decNat_of_lt (by omega)]
    exact Nat.le_refl _
  | succ k ih =>
    by_cases hn : n < 10
    · rw [decNat_of_lt hn, List.length_singleton]
      omega
    · have hpow : 10 ^ (k + 1 + 1) = 10 * 10 ^ (k + 1) := by rw [Nat.pow_succ, Nat.mul_comm]
      have hrest := ih (n := n / 10) (by omega)
      have hstep := decNat_step (n := n / 10) (d := n % 10) (by omega) (by omega)
      rw [show 10 * (n / 10) + n % 10 = n by omega] at hstep
      rw [hstep, List.length_append, List.length_singleton]
      omega

theorem decVal_append (a b : Bytes) : decVal (a ++ b) = decVal a * 10 ^ b.length + decVal b := by
  induction b using List.reverseRecOn with
  | nil => simp [decVal]
  | append_singleton b c ih =>
    have hs : ∀ t : Bytes, decVal (t ++ [c]) = decVal t * 10 + (c.toNat - 48) := by
      intro t
      simp [decVal]
    rw [← List.append_assoc, hs, hs, ih, List.length_append, List.length_singleton]
    ring

theorem decVal_decNat (n : Nat) : decVal (decNat n) = n := by
  refine decNat_induction (P := fun n s => decVal s = n) ?_ ?_ n
  · intro n hn
    simp only [decVal, List.foldl_cons, List.foldl_nil, Nat.zero_mul, Nat.zero_add]
    exact toNat_digit hn
  · intro n d _ hd ih
    have hd' : decVal [UInt8.ofNat (48 + d)] = d := by
      simp only [decVal, List.foldl_cons, List.foldl_nil, Nat.zero_mul, Nat.zero_add]
      exact toNat_digit hd
    rw [decVal_append, ih, hd', List.length_singleton]
    ring

theorem decNat_injective : Function.Injective decNat := by
  intro a b h
  rw [← decVal_decNat a, h, decVal_decNat]

theorem append_first_inj {α : Type} {c : α} {x y t u : List α} (hx : c ∉ x) (hy : c ∉ y)
    (h : x ++ c :: t = y ++ c :: u) : x = y ∧ t = u := by
  induction x generalizing y with
  | nil =>
    cases y with
    | nil => exact ⟨rfl, (List.cons.inj h).2⟩
    | cons b y =>
      obtain ⟨rfl, -⟩ := List.cons.inj h
      exact absurd List.mem_cons_self hy
  | cons a x ih =>
    cases y with
    | nil =>
      obtain ⟨rfl, -⟩ := List.cons.inj h
      exact absurd List.mem_cons_self hx
    | cons b y =>
      obtain ⟨rfl, htail⟩ := List.cons.inj h
      obtain ⟨rfl, rfl⟩ := ih (fun hm => hx (List.mem_cons_of_mem _ hm))
        (fun hm => hy (List.mem_cons_of_mem _ hm)) htail
      exact ⟨rfl, rfl⟩

theorem decNat_mark_inj {c : UInt8} (hc : ¬ IsDigit c) {a b : Nat} {t u : Bytes}
    (h : decNat a ++ c :: t = decNat b ++ c :: u) : a = b ∧ t = u := by
  have hmark : ∀ n, c ∉ decNat n := fun n hn => hc (decNat_digits n c hn)
  obtain ⟨hnum, htail⟩ := append_first_inj (hmark a) (hmark b) h
  exact ⟨decNat_injective hnum, htail⟩

theorem decVal_lt {s : Bytes} (hs : ∀ c ∈ s, IsDigit c) : decVal s < 10 ^ s.length := by
  induction s using List.reverseRecOn with
  | nil => simp [decVal]
  | append_singleton s c ih =>
    have hc : IsDigit c := hs c (by simp)
    have hi := ih (fun x hx => hs x (by simp [hx]))
    have hv : c.toNat - 48 < 10 := by
      have h := hc.2
      rw [UInt8.le_iff_toNat_le] at h
      have h57 : (57 : UInt8).toNat = 57 := rfl
      omega
    have h1 : decVal [c] = c.toNat - 48 := by simp [decVal]
    rw [decVal_append, h1, List.length_append, List.length_singleton, pow_succ 10 s.length]
    omega

theorem decNat_head (n : Nat) : n = 0 ∨ ∀ t, decNat n ≠ 48 :: t := by
  refine decNat_induction (P := fun n s => n = 0 ∨ ∀ t, s ≠ 48 :: t) ?_ ?_ n
  · intro n hn
    rcases Nat.eq_zero_or_pos n with h0 | h0
    · exact Or.inl h0
    · right
      intro t ht
      have hc : UInt8.ofNat (48 + n) = 48 := (List.cons.inj ht).1
      have := toNat_digit hn
      rw [hc] at this
      have h48 : (48 : UInt8).toNat = 48 := rfl
      omega
  · intro n d hn _ ih
    right
    intro t ht
    rcases ih with h0 | h
    · omega
    · cases hs : decNat n with
      | nil => exact decNat_ne_nil n hs
      | cons c s =>
        rw [hs, List.cons_append] at ht
        exact h s (by rw [hs, (List.cons.inj ht).1])

theorem decVal_pos {u : Bytes} (hu : u ≠ []) (h0 : ∀ t, u ≠ 48 :: t)
    (hd : ∀ c ∈ u, IsDigit c) : 0 < decVal u := by
  cases u with
  | nil => exact absurd rfl hu
  | cons c t =>
    have hc : IsDigit c := hd c (by simp)
    have hne : c ≠ 48 := fun h => h0 t (by rw [h])
    have h1 : decVal [c] = c.toNat - 48 := by simp [decVal]
    have hpos : 0 < c.toNat - 48 := by
      have h := hc.1
      rw [UInt8.le_iff_toNat_le] at h
      have h48 : (48 : UInt8).toNat = 48 := rfl
      have hn : c.toNat ≠ 48 := fun he => hne (UInt8.toNat_inj.mp (by rw [he, h48]))
      omega
    have happ := decVal_append [c] t
    rw [List.singleton_append] at happ
    have hp : 0 < 10 ^ t.length := Nat.pow_pos (by decide)
    have := Nat.mul_pos hpos hp
    rw [happ, h1]
    omega

theorem decInt_of_digit_head {f : Int} {c : UInt8} {t : Bytes} (hc : IsDigit c)
    (h : decInt f = c :: t) : decInt f = decNat f.natAbs := by
  unfold decInt at h ⊢
  split_ifs at h ⊢ with hf
  · have : (45 : UInt8) = c := (List.cons.inj h).1
    subst this
    exact absurd hc (by decide)
  · rfl

theorem decInt_ne_nil (f : Int) : decInt f ≠ [] := by
  unfold decInt
  split_ifs
  · simp
  · exact decNat_ne_nil _

theorem decInt_injective : Function.Injective decInt := by
  intro a b h
  have minus : ∀ n t, decNat n ≠ 45 :: t := by
    intro n t ht
    have := decNat_digits n 45 (by rw [ht]; simp)
    exact absurd this (by decide)
  unfold decInt at h
  split_ifs at h with ha hb hb
  · have := decNat_injective (List.cons.inj h).2
    omega
  · exact absurd h.symm (minus _ _)
  · exact absurd h (minus _ _)
  · have := decNat_injective h
    omega

/-- One direction of the shift: a longer second numeral needs at least `K` more
digits, because what it gained is a nonzero multiple of `d`. -/
theorem decNat_shift_bound {d K a b : Nat} {u : Bytes} {f g : Int} (hK : 10 ^ (K - 1) ≤ d)
    (ha : d ∣ a) (hb : d ∣ b) (hu : u ≠ []) (hab : decNat b = decNat a ++ u)
    (hfg : decInt f = u ++ decInt g) : d * 10 ^ K ≤ b := by
  obtain ⟨c, t, rfl⟩ := List.exists_cons_of_ne_nil hu
  have hdig : ∀ x ∈ c :: t, IsDigit x := by
    intro x hx
    exact decNat_digits b x (by rw [hab]; exact List.mem_append_right _ hx)
  have hc : IsDigit c := hdig c (by simp)
  have hf : decNat f.natAbs = c :: t ++ decInt g := by
    rw [← decInt_of_digit_head hc (by rw [hfg]; rfl), hfg]
  -- The added digits cannot start with `0`, or the signed numeral would not be canonical.
  have hlead : ∀ s, c :: t ≠ 48 :: s := by
    intro s hs
    rcases decNat_head f.natAbs with h0 | h0
    · rw [h0] at hf
      have hl := congrArg List.length hf
      have : (decNat 0).length = 1 := by decide
      have hg := List.length_pos_iff.mpr (decInt_ne_nil g)
      simp only [List.length_append, List.length_cons] at hl
      omega
    · exact h0 (s ++ decInt g) (by rw [hf, hs]; rfl)
  have hpos := decVal_pos (by simp) hlead hdig
  have hlt := decVal_lt hdig
  have hval : b = a * 10 ^ (c :: t).length + decVal (c :: t) := by
    rw [← decVal_decNat b, hab, decVal_append, decVal_decNat]
  have hdvd : d ∣ decVal (c :: t) := by
    have h1 : d ∣ a * 10 ^ (c :: t).length := Dvd.dvd.mul_right ha _
    rw [hval] at hb
    exact (Nat.dvd_add_right h1).mp hb
  have hge : d ≤ decVal (c :: t) := Nat.le_of_dvd hpos hdvd
  have hlen : K ≤ (c :: t).length := by
    by_contra hlt'
    have hle : 10 ^ (c :: t).length ≤ 10 ^ (K - 1) :=
      Nat.pow_le_pow_right (by decide) (by omega)
    omega
  have ha0 : 0 < a := by
    rcases Nat.eq_zero_or_pos a with h0 | h0
    · exfalso
      rw [h0] at hab
      have hz : decNat 0 = [48] := by decide
      rw [hz] at hab
      rcases decNat_head b with hb0 | hb0
      · rw [hb0, hz] at hab
        simp at hab
      · exact hb0 _ hab
    · exact h0
  have hda : d ≤ a := Nat.le_of_dvd ha0 ha
  calc d * 10 ^ K ≤ a * 10 ^ (c :: t).length :=
        Nat.mul_le_mul hda (Nat.pow_le_pow_right (by decide) hlen)
    _ ≤ b := by omega

/-- A numeral of a multiple of `d` written directly before a signed numeral is
read in one way only, as long as both multiples stay below `d * 10 ^ K`. -/
theorem decNat_decInt_unique {d K a b : Nat} {f g : Int} (hK : 10 ^ (K - 1) ≤ d)
    (ha : d ∣ a) (hb : d ∣ b) (hal : a < d * 10 ^ K) (hbl : b < d * 10 ^ K)
    (h : decNat a ++ decInt f = decNat b ++ decInt g) : a = b ∧ f = g := by
  rcases List.append_eq_append_iff.mp h with ⟨u, hu, hf⟩ | ⟨u, hu, hg⟩
  · by_cases hn : u = []
    · subst hn
      simp only [List.append_nil, List.nil_append] at hu hf
      exact ⟨(decNat_injective hu).symm, decInt_injective hf⟩
    · have := decNat_shift_bound hK ha hb hn hu hf
      omega
  · by_cases hn : u = []
    · subst hn
      simp only [List.append_nil, List.nil_append] at hu hg
      exact ⟨decNat_injective hu, (decInt_injective hg).symm⟩
    · have := decNat_shift_bound hK hb ha hn hu hg
      omega

end CrustSworker
