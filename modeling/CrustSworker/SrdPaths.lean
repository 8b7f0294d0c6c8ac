import Mathlib.Data.List.Nodup
import CrustSworker.JsonRead

/-!
# One srd path for each filesystem

`get_valid_srd_path` walks the configured paths and keeps a path when the id of its
filesystem was not met before. The ids are compared as text, and the text is cut to as many
characters as the id has bytes, so half of the id decides.
-/

namespace CrustSworker.SrdPaths

/-! ### First elements of a key -/

section
variable {α β γ : Type} [DecidableEq β] [DecidableEq γ]

def firsts (key : α → β) : List α → List α → List α
  | _, [] => []
  | before, a :: l =>
    if ∃ b ∈ before, key b = key a then firsts key (before ++ [a]) l
    else a :: firsts key (before ++ [a]) l

theorem key_new_of_mem_firsts {key : α → β} {before l : List α} {a b : α}
    (h : a ∈ firsts key before l) (hb : b ∈ before) : key b ≠ key a := by
  induction l generalizing before with
  | nil => simp [firsts] at h
  | cons c l ih =>
    rw [firsts] at h
    split_ifs at h with hseen
    · exact ih h (List.mem_append_left _ hb)
    · rcases List.mem_cons.mp h with rfl | h
      · exact fun heq => hseen ⟨b, hb, heq⟩
      · exact ih h (List.mem_append_left _ hb)

theorem firsts_nodup (key : α → β) (before l : List α) :
    ((firsts key before l).map key).Nodup := by
  induction l generalizing before with
  | nil => exact List.nodup_nil
  | cons a l ih =>
    rw [firsts]
    split_ifs
    · exact ih _
    · refine List.nodup_cons.mpr ⟨fun hmem => ?_, ih _⟩
      obtain ⟨b, hb, heq⟩ := List.mem_map.mp hmem
      exact key_new_of_mem_firsts hb (List.mem_append_right _ List.mem_cons_self) heq.symm

theorem exists_mem_firsts {key : α → β} {before l : List α} {a : α} (ha : a ∈ l)
    (hnew : ∀ b ∈ before, key b ≠ key a) : ∃ b ∈ firsts key before l, key b = key a := by
  induction l generalizing before with
  | nil => cases ha
  | cons c l ih =>
    rw [firsts]
    by_cases hc : key c = key a
    · rw [if_neg (by rintro ⟨b, hb, heq⟩; exact hnew b hb (heq.trans hc))]
      exact ⟨c, List.mem_cons_self, hc⟩
    · have hl : a ∈ l := (List.mem_cons.mp ha).resolve_left (by rintro rfl; exact hc rfl)
      have hnew' : ∀ b ∈ before ++ [c], key b ≠ key a := by
        intro b hb
        rcases List.mem_append.mp hb with hb | hb
        · exact hnew b hb
        · rw [List.mem_singleton.mp hb]
          exact hc
      obtain ⟨b, hb, heq⟩ := ih hl hnew'
      split_ifs
      · exact ⟨b, hb, heq⟩
      · exact ⟨b, List.mem_cons_of_mem _ hb, heq⟩

theorem firsts_congr {f : α → β} {g : α → γ} {before l : List α}
    (h : ∀ a ∈ before ++ l, ∀ b ∈ before ++ l, f a = f b ↔ g a = g b) :
    firsts f before l = firsts g before l := by
  induction l generalizing before with
  | nil => rfl
  | cons c l ih =>
    have hsplit : before ++ c :: l = (before ++ [c]) ++ l := by simp
    have hiff : (∃ b ∈ before, f b = f c) ↔ ∃ b ∈ before, g b = g c := by
      refine exists_congr fun b => and_congr_right fun hb => ?_
      exact h b (List.mem_append_left _ hb) c (List.mem_append_right _ List.mem_cons_self)
    simp only [firsts, hiff, ih (hsplit ▸ h)]

/-- A coarser key keeps the same elements exactly when it is not coarser on them. -/
theorem firsts_eq_iff {f : α → β} {g : α → γ} {l : List α}
    (hcoarse : ∀ a b, g a = g b → f a = f b) :
    firsts f [] l = firsts g [] l ↔ ∀ a ∈ l, ∀ b ∈ l, f a = f b → g a = g b := by
  constructor
  · intro heq a ha b hb hab
    obtain ⟨a', ha', hga⟩ : ∃ c ∈ firsts g [] l, g c = g a := exists_mem_firsts ha nofun
    obtain ⟨b', hb', hgb⟩ : ∃ c ∈ firsts g [] l, g c = g b := exists_mem_firsts hb nofun
    have hf : f a' = f b' := by rw [hcoarse _ _ hga, hcoarse _ _ hgb, hab]
    rw [← heq] at ha' hb'
    have hsame : a' = b' := List.inj_on_of_nodup_map (firsts_nodup f [] l) ha' hb' hf
    rw [← hga, ← hgb, hsame]
  · intro h
    refine firsts_congr fun a ha b hb => ?_
    exact ⟨h a ha b hb, hcoarse a b⟩

end

/-! ### Texts of the application's documents -/

def jsonNl : Bytes := str "%$&nl&$%"

def jsonNlText : Bytes := str "\n        "

/-- `str_replace`, on at most that many characters. The text that is put in holds no new
occurrence, so the search goes on behind it. -/
def strReplace (org det : Bytes) : Nat → Bytes → Bytes
  | 0, s => s
  | _ + 1, [] => []
  | n + 1, c :: s =>
    if org.isPrefixOf (c :: s) then det ++ strReplace org det n (s.drop (org.length - 1))
    else c :: strReplace org det n s

/-- `ToString` of a string of the application, whose `json_escape` also replaces the line mark. -/
def toStringApp (s : Bytes) : Bytes :=
  strReplace jsonNl jsonNlText (jsonEscape s).length (jsonEscape s)

def unreplace : Nat → Bytes → Bytes
  | 0, s => s
  | _ + 1, [] => []
  | n + 1, c :: s =>
    if c = 10 then jsonNl ++ unreplace n (s.drop 8) else c :: unreplace n s

theorem unreplace_strReplace {n m : Nat} {s : Bytes} (hn : s.length ≤ n)
    (hm : (strReplace jsonNl jsonNlText n s).length ≤ m) (hs : ∀ c ∈ s, c ≠ 10) :
    unreplace m (strReplace jsonNl jsonNlText n s) = s := by
  induction n generalizing m s with
  | zero =>
    rw [List.eq_nil_of_length_eq_zero (Nat.le_zero.mp hn)]
    cases m <;> rfl
  | succ n ih =>
    cases s with
    | nil => cases m <;> rfl
    | cons c s =>
      rw [strReplace] at hm ⊢
      rw [List.length_cons] at hn
      split_ifs at hm ⊢ with hmark
      · obtain ⟨t, ht⟩ := List.isPrefixOf_iff_prefix.mp hmark
        have hdrop : s.drop (jsonNl.length - 1) = t := by
          have := congrArg (List.drop jsonNl.length) ht
          rw [List.drop_left] at this
          exact this.symm
        rw [hdrop] at hm ⊢
        have hlen : t.length ≤ n := by
          have := congrArg List.length hdrop
          rw [List.length_drop] at this
          omega
        have htail : ∀ d ∈ t, d ≠ 10 := fun d hd => hs d (ht ▸ List.mem_append_right _ hd)
        cases m with
        | zero => exact absurd hm (by simp [jsonNlText, str])
        | succ m =>
          change jsonNl ++ unreplace m (strReplace jsonNl jsonNlText n t) = c :: s
          rw [ih hlen ?_ htail, ht]
          have hnine : jsonNlText.length = 9 := rfl
          rw [List.length_append] at hm
          omega
      · cases m with
        | zero => exact absurd hm (by simp)
        | succ m =>
          rw [List.length_cons] at hm
          rw [unreplace, if_neg (hs c List.mem_cons_self), ih (by omega) (by omega)
            fun d hd => hs d (List.mem_cons_of_mem _ hd)]

theorem escapeChar_no_newline {c d : UInt8} (h : d ∈ escapeChar c) : d ≠ 10 := by
  unfold escapeChar at h
  split_ifs at h with h34 h92 h8 h12 h10
  case neg => grind
  all_goals
    rcases List.mem_pair.mp h with rfl | rfl <;> decide

def unescapeChar (x : UInt8) : UInt8 :=
  if x = 98 then 8
  else if x = 102 then 12
  else if x = 110 then 10
  else if x = 114 then 13
  else if x = 116 then 9
  else x

theorem escapeChar_cases (c : UInt8) :
    (escapeChar c = [c] ∧ c ≠ 92) ∨ ∃ x, escapeChar c = [92, x] ∧ unescapeChar x = c := by
  unfold escapeChar
  split_ifs with h34 h92 h8 h12 h10 h13 h9
  case neg => exact .inl ⟨rfl, h92⟩
  all_goals
    subst c
    exact .inr ⟨_, rfl, by decide⟩

theorem escapeChar_head_inj {c d : UInt8} {s t : Bytes}
    (h : escapeChar c ++ s = escapeChar d ++ t) : c = d ∧ s = t := by
  rcases escapeChar_cases c with ⟨hc, hc92⟩ | ⟨x, hc, hx⟩
  · rcases escapeChar_cases d with ⟨hd, hd92⟩ | ⟨y, hd, hy⟩
    · rw [hc, hd] at h
      exact List.cons.inj h
    · rw [hc, hd] at h
      exact absurd (List.cons.inj h).1 hc92
  · rcases escapeChar_cases d with ⟨hd, hd92⟩ | ⟨y, hd, hy⟩
    · rw [hc, hd] at h
      exact absurd (List.cons.inj h).1.symm hd92
    · rw [hc, hd] at h
      obtain ⟨hxy, hst⟩ := List.cons.inj (List.cons.inj h).2
      rw [← hx, ← hy, hxy]
      exact ⟨rfl, hst⟩

theorem escapeChar_ne_nil (c : UInt8) : escapeChar c ≠ [] := by
  unfold escapeChar
  split_ifs <;> simp

theorem jsonEscape_injective : Function.Injective jsonEscape := by
  intro s t h
  induction s generalizing t with
  | nil =>
    cases t with
    | nil => rfl
    | cons d t => exact absurd (List.append_eq_nil_iff.mp h.symm).1 (escapeChar_ne_nil d)
  | cons c s ih =>
    cases t with
    | nil => exact absurd (List.append_eq_nil_iff.mp h).1 (escapeChar_ne_nil c)
    | cons d t =>
      obtain ⟨rfl, hrest⟩ := escapeChar_head_inj h
      rw [ih hrest]

theorem toStringApp_injective : Function.Injective toStringApp := by
  have hclean : ∀ s, ∀ c ∈ jsonEscape s, c ≠ 10 := fun s c hc => by
    obtain ⟨d, -, hd⟩ := List.mem_flatMap.mp hc
    exact escapeChar_no_newline hd
  intro s t h
  have hs := unreplace_strReplace (Nat.le_refl _) (Nat.le_refl _) (hclean s)
  have ht := unreplace_strReplace (Nat.le_refl _) (Nat.le_refl _) (hclean t)
  change unreplace (toStringApp s).length (toStringApp s) = jsonEscape s at hs
  change unreplace (toStringApp t).length (toStringApp t) = jsonEscape t at ht
  rw [h, ht] at hs
  exact jsonEscape_injective hs.symm

/-! ### The paths -/

structure StatFs where
  fBlocks : UInt64
  fBavail : UInt64
  fBsize : UInt64
  fFsid : ByteArr 8

structure Disks where
  createDirectory : Bytes → Bool
  statfs : Bytes → Option StatFs
  mallocFsid : Bytes → Bool

def fsidText (fsid : ByteArr 8) : Bytes := (hexstringSafe fsid.val).take 8

def validLoop (disks : Disks) : List Bytes → List Bytes → List Bytes → Option (List Bytes)
  | [], _, ans => some ans
  | srdPath :: srdPaths, fsids, ans =>
    let path := toStringApp srdPath
    if ¬ disks.createDirectory path then validLoop disks srdPaths fsids ans
    else
      match disks.statfs path with
      | none => some ans
      | some diskInfo =>
        if ¬ disks.mallocFsid path then none
        else
          let fsidStr := fsidText diskInfo.fFsid
          if fsidStr ∉ fsids then validLoop disks srdPaths (fsids ++ [fsidStr]) (ans ++ [path])
          else validLoop disks srdPaths fsids ans

def getValidSrdPath (disks : Disks) (srdPaths : List Bytes) : Option (List Bytes) :=
  validLoop disks srdPaths [] []

structure HasFsids (disks : Disks) (fsid : Bytes → ByteArr 8) (paths : List Bytes) : Prop where
  creatable : ∀ path ∈ paths, disks.createDirectory path = true
  statfs : ∀ path ∈ paths, (disks.statfs path).map StatFs.fFsid = some (fsid path)

theorem validLoop_nil (disks : Disks) (fsids ans : List Bytes) :
    validLoop disks [] fsids ans = some ans := rfl

theorem validLoop_next (disks : Disks) (srdPath : Bytes) (srdPaths fsids ans : List Bytes) :
    validLoop disks (srdPath :: srdPaths) fsids ans =
      if ¬ disks.createDirectory (toStringApp srdPath) then validLoop disks srdPaths fsids ans
      else
        match disks.statfs (toStringApp srdPath) with
        | none => some ans
        | some diskInfo =>
          if ¬ disks.mallocFsid (toStringApp srdPath) then none
          else if fsidText diskInfo.fFsid ∉ fsids then
            validLoop disks srdPaths (fsids ++ [fsidText diskInfo.fFsid])
              (ans ++ [toStringApp srdPath])
          else validLoop disks srdPaths fsids ans := rfl

theorem validLoop_nodup {disks : Disks} {srdPaths fsids ans paths : List Bytes}
    (h : validLoop disks srdPaths fsids ans = some paths) (hans : ans.Nodup)
    (hids : ∀ p ∈ ans, ∀ info, disks.statfs p = some info → fsidText info.fFsid ∈ fsids) :
    paths.Nodup := by
  induction srdPaths generalizing fsids ans with
  | nil =>
    rw [validLoop_nil, Option.some_inj] at h
    rwa [← h]
  | cons srdPath srdPaths ih =>
    rw [validLoop_next] at h
    by_cases hcreate : disks.createDirectory (toStringApp srdPath) = true
    · rw [if_neg (not_not.mpr hcreate)] at h
      cases hstat : disks.statfs (toStringApp srdPath) with
      | none =>
        rw [hstat, Option.some_inj] at h
        rwa [← h]
      | some info =>
        rw [hstat] at h
        dsimp only at h
        split_ifs at h with hmalloc hnew
        · exact ih h hans hids
        · have hfresh : toStringApp srdPath ∉ ans := fun hmem => hnew (hids _ hmem _ hstat)
          refine ih h (List.nodup_append.mpr ⟨hans, List.nodup_singleton _, ?_⟩) ?_
          · rintro p hp q hq rfl
            rw [List.mem_singleton.mp hq] at hp
            exact hfresh hp
          · intro p hp info' hinfo'
            rcases List.mem_append.mp hp with hp | hp
            · exact List.mem_append_left _ (hids p hp info' hinfo')
            · rw [List.mem_singleton.mp hp, hstat, Option.some_inj] at hinfo'
              rw [← hinfo']
              exact List.mem_append_right _ List.mem_cons_self
    · rw [if_pos hcreate] at h
      exact ih h hans hids

theorem getValidSrdPath_nodup {disks : Disks} {srdPaths paths : List Bytes}
    (h : getValidSrdPath disks srdPaths = some paths) : paths.Nodup :=
  validLoop_nodup h List.nodup_nil nofun

section
variable {disks : Disks} {fsid : Bytes → ByteArr 8} {srdPath : Bytes} {srdPaths : List Bytes}

theorem HasFsids.tail (h : HasFsids disks fsid ((srdPath :: srdPaths).map toStringApp)) :
    HasFsids disks fsid (srdPaths.map toStringApp) :=
  ⟨fun path hp => h.creatable path (List.mem_cons_of_mem _ hp),
    fun path hp => h.statfs path (List.mem_cons_of_mem _ hp)⟩

theorem validLoop_cons (h : HasFsids disks fsid ((srdPath :: srdPaths).map toStringApp))
    (fsids ans : List Bytes) :
    validLoop disks (srdPath :: srdPaths) fsids ans =
      if ¬ disks.mallocFsid (toStringApp srdPath) then none
      else if fsidText (fsid (toStringApp srdPath)) ∉ fsids then
        validLoop disks srdPaths (fsids ++ [fsidText (fsid (toStringApp srdPath))])
          (ans ++ [toStringApp srdPath])
      else validLoop disks srdPaths fsids ans := by
  have hcreate := h.creatable _ List.mem_cons_self
  obtain ⟨info, hinfo, hid⟩ := Option.map_eq_some_iff.mp (h.statfs _ List.mem_cons_self)
  rw [validLoop_next, if_neg (not_not.mpr hcreate), hinfo]
  dsimp only
  rw [hid]

theorem validLoop_failed (h : HasFsids disks fsid (srdPaths.map toStringApp))
    (hm : ∃ p ∈ srdPaths, ¬ disks.mallocFsid (toStringApp p)) (fsids ans : List Bytes) :
    validLoop disks srdPaths fsids ans = none := by
  induction srdPaths generalizing fsids ans with
  | nil =>
    obtain ⟨p, hp, -⟩ := hm
    cases hp
  | cons srdPath srdPaths ih =>
    rw [validLoop_cons h]
    by_cases hmalloc : disks.mallocFsid (toStringApp srdPath)
    · have hrest : ∃ p ∈ srdPaths, ¬ disks.mallocFsid (toStringApp p) := by
        obtain ⟨p, hp, hpm⟩ := hm
        refine ⟨p, (List.mem_cons.mp hp).resolve_left ?_, hpm⟩
        rintro rfl
        exact hpm hmalloc
      rw [if_neg (not_not.mpr hmalloc), ih h.tail hrest, ih h.tail hrest, ite_self]
    · rw [if_pos hmalloc]

theorem validLoop_eq (h : HasFsids disks fsid (srdPaths.map toStringApp))
    (hm : ∀ p ∈ srdPaths, disks.mallocFsid (toStringApp p)) {fsids before : List Bytes}
    (hseen : ∀ t, t ∈ fsids ↔ ∃ b ∈ before, fsidText (fsid b) = t) (ans : List Bytes) :
    validLoop disks srdPaths fsids ans =
      some (ans ++ firsts (fun path => fsidText (fsid path)) before (srdPaths.map toStringApp)) := by
  induction srdPaths generalizing fsids before ans with
  | nil => simp [validLoop_nil, firsts]
  | cons srdPath srdPaths ih =>
    have hmalloc := hm srdPath List.mem_cons_self
    have hrest := fun p hp => hm p (List.mem_cons_of_mem srdPath hp)
    rw [validLoop_cons h, if_neg (not_not.mpr hmalloc), List.map_cons, firsts]
    by_cases hold : ∃ b ∈ before, fsidText (fsid b) = fsidText (fsid (toStringApp srdPath))
    · have hseen' : ∀ t, t ∈ fsids ↔
          ∃ b ∈ before ++ [toStringApp srdPath], fsidText (fsid b) = t := by
        intro t
        rw [hseen]
        constructor
        · rintro ⟨b, hb, hbt⟩
          exact ⟨b, List.mem_append_left _ hb, hbt⟩
        · rintro ⟨b, hb, hbt⟩
          rcases List.mem_append.mp hb with hb | hb
          · exact ⟨b, hb, hbt⟩
          · rw [List.mem_singleton.mp hb] at hbt
            exact hbt ▸ hold
      rw [if_neg (not_not.mpr ((hseen _).mpr hold)), if_pos hold, ih h.tail hrest hseen']
    · have hseen' : ∀ t, t ∈ fsids ++ [fsidText (fsid (toStringApp srdPath))] ↔
          ∃ b ∈ before ++ [toStringApp srdPath], fsidText (fsid b) = t := by
        intro t
        simp only [List.mem_append, hseen, List.mem_singleton, or_and_right, exists_or,
          exists_eq_left]
        exact or_congr_right eq_comm
      rw [if_pos fun hmem => hold ((hseen _).mp hmem), if_neg hold, ih h.tail hrest hseen',
        List.append_assoc, List.singleton_append]

end

theorem fsidText_eq_iff (a b : ByteArr 8) : fsidText a = fsidText b ↔ a.val.take 4 = b.val.take 4 := by
  have hcut : ∀ c : ByteArr 8, fsidText c = hexstringSafe (c.val.take 4) := by
    intro c
    have hlen : (hexstringSafe (c.val.take 4)).length = 8 := by
      rw [JsonParse.length_hexstringSafe, List.length_take, c.property]
      rfl
    have hsplit : hexstringSafe c.val = hexstringSafe (c.val.take 4) ++ hexstringSafe (c.val.drop 4) := by
      conv_lhs => rw [← List.take_append_drop 4 c.val, hexstringSafe, List.flatMap_append]
      rfl
    rw [fsidText, hsplit, List.take_left' hlen]
  rw [hcut, hcut]
  constructor
  · intro h
    rw [← JsonParse.hexPairs_hexstringSafe (a.val.take 4), h, JsonParse.hexPairs_hexstringSafe]
  · exact fun h => by rw [h]

/-- The first path of every filesystem is returned exactly when the id texts get their memory
and no two ids agree in their first half only. -/
theorem getValidSrdPath_firsts_iff {disks : Disks} {fsid : Bytes → ByteArr 8} {srdPaths : List Bytes}
    (h : HasFsids disks fsid (srdPaths.map toStringApp)) :
    getValidSrdPath disks srdPaths = some (firsts fsid [] (srdPaths.map toStringApp)) ↔
      (∀ p ∈ srdPaths, disks.mallocFsid (toStringApp p) = true) ∧
        ∀ p ∈ srdPaths, ∀ q ∈ srdPaths,
          (fsid (toStringApp p)).val.take 4 = (fsid (toStringApp q)).val.take 4 →
            fsid (toStringApp p) = fsid (toStringApp q) := by
  by_cases hm : ∀ p ∈ srdPaths, disks.mallocFsid (toStringApp p) = true
  · have hcoarse : ∀ a b, fsid a = fsid b → fsidText (fsid a) = fsidText (fsid b) :=
      fun a b hab => by rw [hab]
    have hseen : ∀ t, t ∈ ([] : List Bytes) ↔ ∃ b ∈ ([] : List Bytes), fsidText (fsid b) = t := by
      simp
    rw [and_iff_right hm, getValidSrdPath, validLoop_eq h hm hseen [], List.nil_append,
      Option.some_inj, firsts_eq_iff hcoarse]
    simp only [List.forall_mem_map, fsidText_eq_iff]
  · refine iff_of_false (fun heq => ?_) fun hall => hm hall.1
    push Not at hm
    rw [getValidSrdPath, validLoop_failed h (by simpa using hm)] at heq
    cases heq

def twoFsids (byte : UInt8) (path : Bytes) : ByteArr 8 :=
  if path = str "/b" then ⟨[1, 2, 3, byte, 0, 0, 0, 1], rfl⟩ else ⟨[1, 2, 3, 4, 0, 0, 0, 0], rfl⟩

def twoDisks (byte : UInt8) : Disks where
  createDirectory := fun _ => true
  statfs := fun path => some ⟨0, 0, 0, twoFsids byte path⟩
  mallocFsid := fun _ => true

theorem twoDisks_fsids (byte : UInt8) (paths : List Bytes) :
    HasFsids (twoDisks byte) (twoFsids byte) paths :=
  ⟨fun _ _ => rfl, fun _ _ => rfl⟩

theorem getValidSrdPath_firsts_two :
    getValidSrdPath (twoDisks 5) [str "/a", str "/b"] =
        some (firsts (twoFsids 5) [] ([str "/a", str "/b"].map toStringApp)) ↔
      (∀ p ∈ [str "/a", str "/b"], (twoDisks 5).mallocFsid (toStringApp p) = true) ∧
        ∀ p ∈ [str "/a", str "/b"], ∀ q ∈ [str "/a", str "/b"],
          (twoFsids 5 (toStringApp p)).val.take 4 = (twoFsids 5 (toStringApp q)).val.take 4 →
            twoFsids 5 (toStringApp p) = twoFsids 5 (toStringApp q) :=
  getValidSrdPath_firsts_iff (twoDisks_fsids 5 _)

theorem getValidSrdPath_drops_disk :
    ¬ ∀ (disks : Disks) (fsid : Bytes → ByteArr 8) (srdPaths : List Bytes),
      HasFsids disks fsid (srdPaths.map toStringApp) →
      (∀ p ∈ srdPaths, disks.mallocFsid (toStringApp p) = true) →
      getValidSrdPath disks srdPaths = some (firsts fsid [] (srdPaths.map toStringApp)) := by
  intro hclaim
  have hall := hclaim (twoDisks 4) (twoFsids 4) [str "/a", str "/b"] (twoDisks_fsids 4 _)
    fun _ _ => rfl
  have hone : getValidSrdPath (twoDisks 4) [str "/a", str "/b"] = some [str "/a"] := by
    decide +kernel
  have htwo : firsts (twoFsids 4) [] ([str "/a", str "/b"].map toStringApp) = [str "/a", str "/b"] := by
    decide +kernel
  rw [hone, htwo] at hall
  exact absurd hall (by decide)

end CrustSworker.SrdPaths
