import CrustSworker.Seal
import CrustSworker.Validator

/-!
# What a passed block check says about the data

A file that is still valid after its check should mean that the host showed the
sealed block. The hash it is compared with is cut out of the tree's text, behind the
leaf tag with the drawn number, and nothing ties that text to the tree that was
authenticated. The main theorem says for which texts the check is sound.
-/

namespace CrustSworker.ValidatorSound

open Merkle TextSearch Validator Seal

variable {τ : Type}

def LeafText (s : Bytes) (b : Nat) (x : Bytes) : Prop :=
  ∃ mid rest, NthAfter stag b s mid ∧ FirstAt etag mid x rest

theorem LeafText.unique {s : Bytes} {b : Nat} {x y : Bytes} (hx : LeafText s b x)
    (hy : LeafText s b y) : x = y := by
  obtain ⟨mid, rest, hn, hf⟩ := hx
  obtain ⟨mid', rest', hn', hf'⟩ := hy
  obtain rfl := hn.unique hn'
  exact (hf.unique hf').1

/-! ### The scan finds the leaf text -/

theorem seekLeaf_sound {s : Bytes} {n spos cur q : Nat}
    (h : (seekLeaf s n spos cur).1 = some q) :
    q ≤ s.length ∧ NthAfter stag n (s.drop spos) (s.drop q) := by
  induction n generalizing spos cur with
  | zero =>
    unfold seekLeaf at h
    split at h
    · cases h
    rename_i p hp
    cases h
    obtain ⟨pre, hf, -, hle⟩ := find_sound hp
    exact ⟨hle, .zero hf⟩
  | succ n ih =>
    unfold seekLeaf at h
    split at h
    · cases h
    rename_i p hp
    obtain ⟨pre, hf, -, -⟩ := find_sound hp
    obtain ⟨hle, hn⟩ := ih h
    exact ⟨hle, .succ hf hn⟩

theorem seekLeaf_complete {s : Bytes} {n spos : Nat} {rest : Bytes} (cur : Nat)
    (hpos : spos ≤ s.length) (h : NthAfter stag n (s.drop spos) rest) :
    ∃ q ≤ s.length, (seekLeaf s n spos cur).1 = some q ∧ s.drop q = rest := by
  induction n generalizing spos cur with
  | zero =>
    cases h with
    | zero hf =>
      have hfind := find_complete hpos hf
      obtain ⟨pre, hf', -, hle⟩ := find_sound hfind
      unfold seekLeaf
      rw [hfind]
      exact ⟨_, hle, rfl, (hf.unique hf').2.symm⟩
  | succ n ih =>
    cases h with
    | succ hf hn =>
      have hfind := find_complete hpos hf
      obtain ⟨pre, hf', -, hle⟩ := find_sound hfind
      rw [(hf.unique hf').2] at hn
      unfold seekLeaf
      rw [hfind]
      exact ih _ hle hn

theorem leafText_of_find {s : Bytes} {b spos epos : Nat}
    (hseek : (seekLeaf s b 0 0).1 = some spos) (hend : find etag s spos = some epos) :
    LeafText s b ((s.drop spos).take (epos - spos)) := by
  obtain ⟨-, hn⟩ := seekLeaf_sound hseek
  obtain ⟨pre, hf, hepos, -⟩ := find_sound hend
  have hpre : (s.drop spos).take (epos - spos) = pre := by
    rw [hf.split, hepos, Nat.add_sub_cancel_left, List.append_assoc, List.take_left]
  rw [hpre]
  exact ⟨_, _, hn, hf⟩

theorem find_of_leafText {s : Bytes} {b : Nat} {x : Bytes} (h : LeafText s b x) :
    ∃ spos epos, (seekLeaf s b 0 0).1 = some spos ∧ find etag s spos = some epos := by
  obtain ⟨mid, rest, hn, hf⟩ := h
  obtain ⟨spos, hle, hseek, rfl⟩ := seekLeaf_complete 0 (Nat.zero_le _) hn
  exact ⟨spos, _, hseek, find_complete hle hf⟩

section
variable (sha256 : Bytes → Hash) (mem : Mem) (env : CheckEnv)

def blockPasses (b : Nat) (x : Bytes) : Prop :=
  (env.validateGetFile (decNat b ++ str "_" ++ x)).1 = .success ∧
    ∀ u, hexStringToBytes x = some u → env.mallocLeafHash = true →
      mem.read u 32 = gotHash sha256 env (env.validateGetFile (decNat b ++ str "_" ++ x)).2

theorem checkBlocks_found {s : Bytes} {b spos epos : Nat}
    (hseek : (seekLeaf s b 0 0).1 = some spos) (hend : find etag s spos = some epos) :
    checkBlocks sha256 mem env s [b] 0 0 = .passed ↔
      blockPasses sha256 mem env b ((s.drop spos).take (epos - spos)) := by
  obtain ⟨cur, hcur⟩ : ∃ cur, seekLeaf s b 0 0 = (some spos, cur) := ⟨_, Prod.ext hseek rfl⟩
  simp only [checkBlocks, Nat.sub_zero, hcur, hend, blockPasses]
  generalize (s.drop spos).take (epos - spos) = x
  generalize env.validateGetFile (decNat b ++ str "_" ++ x) = reply
  by_cases hst : reply.1 = .success
  · rw [if_neg (not_not.mpr hst)]
    cases hx : hexStringToBytes x with
    | none => simp [hst]
    | some u =>
      by_cases hm : env.mallocLeafHash = true
      · by_cases hu : mem.read u 32 = gotHash sha256 env reply.2 <;> simp [hst, hm, hu]
      · simp [hst, hm]
  · rw [if_pos hst]
    split_ifs <;> simp [hst]

theorem checkBlocks_singleton (s : Bytes) (b : Nat) :
    checkBlocks sha256 mem env s [b] 0 0 = .passed ↔
      ∃ x, LeafText s b x ∧ blockPasses sha256 mem env b x := by
  constructor
  · intro h
    cases hseek : (seekLeaf s b 0 0).1 with
    | none =>
      have hpair : seekLeaf s b 0 0 = (none, (seekLeaf s b 0 0).2) := Prod.ext hseek rfl
      rw [checkBlocks, Nat.sub_zero, hpair] at h
      cases h
    | some spos =>
      cases hend : find etag s spos with
      | none =>
        have hpair : seekLeaf s b 0 0 = (some spos, (seekLeaf s b 0 0).2) := Prod.ext hseek rfl
        rw [checkBlocks, Nat.sub_zero, hpair] at h
        simp only [hend] at h
        cases h
      | some epos =>
        exact ⟨_, leafText_of_find hseek hend,
          (checkBlocks_found sha256 mem env hseek hend).mp h⟩
  · rintro ⟨x, hx, hp⟩
    obtain ⟨spos, epos, hseek, hend⟩ := find_of_leafText hx
    obtain rfl := hx.unique (leafText_of_find hseek hend)
    exact (checkBlocks_found sha256 mem env hseek hend).mpr hp

end

/-! ### A file after its check -/

theorem applyVerdict_passed {f : FileItem τ}
    (h : f.current = statusValid ∨ f.current = statusLost) :
    (applyVerdict .passed f).current = statusValid := by
  simp only [applyVerdict]
  split_ifs with hl
  · exact FileItem.current_set_current (by rw [hl]; decide) _
  · exact h.resolve_right hl

theorem applyVerdict_failed {f : FileItem τ}
    (h : f.current = statusValid ∨ f.current = statusLost) :
    (applyVerdict .failed f).current = statusLost := by
  simp only [applyVerdict]
  split_ifs with hv
  · exact FileItem.current_set_current (by rw [hv]; decide) _
  · exact h.resolve_left hv

def answering (env : CheckEnv) (data : Bytes) : CheckEnv :=
  { env with validateGetFile := fun _ => (.success, some data) }

/-- The check of entry `i` leaves it valid only for data with the hash of the sealed
block, whatever data of less than four gigabytes the host shows. -/
def BlockSound (sha256 : Bytes → Hash) (mem : Mem) (env : CheckEnv) (p : Pass τ) (i : Nat)
    (leafHash : Hash) : Prop :=
  ∀ data : Bytes, data.length < 2 ^ 32 → ∀ p' g,
    checkFile sha256 mem (answering env data) p i = some p' →
    p'.wl.checkedFiles[i]? = some g → g.current = statusValid → sha256 data = leafHash

/-- The text behind leaf tag `b` is decoded, and to the hash of the sealed block or to
bytes that no data hashes to. -/
def TextSound (sha256 : Bytes → Hash) (mem : Mem) (env : CheckEnv) (s : Bytes) (b : Nat)
    (leafHash : Hash) : Prop :=
  ∀ x, LeafText s b x → env.mallocLeafHash = true ∧ ∃ u, hexStringToBytes x = some u ∧
    (mem.read u 32 = leafHash ∨ ∀ data : Bytes, data.length < 2 ^ 32 → sha256 data ≠ mem.read u 32)

section
variable {sha256 : Bytes → Hash} {mem : Mem} {env : CheckEnv} {p : Pass τ} {i b : Nat}
  {f : FileItem τ} {s : Bytes} {treeJson : JSON}

theorem judgeFile_answering (hst : f.current = statusValid ∨ f.current = statusLost)
    (hget : env.persistGet = (.success, some s)) (hload : JsonParse.load mem s = .ok treeJson)
    (hb : blockIdxs env.rand (sizeT (f.json.get fileBlockNum).toInt) = [b]) (data : Bytes) :
    judgeFile sha256 mem (answering env data) f =
      some (if treeAccepted sha256 mem env f treeJson then
        checkBlocks sha256 mem (answering env data) s [b] 0 0 else .failed) := by
  have hne : ¬ (f.current = statusUnconfirmed ∨ f.current = statusDeleted) := by
    obtain h | h := hst <;> rw [h] <;> decide
  have hacc : treeAccepted sha256 mem (answering env data) f treeJson =
      treeAccepted sha256 mem env f treeJson := rfl
  have hget' : (answering env data).persistGet = (.success, some s) := hget
  have hb' : blockIdxs (answering env data).rand (sizeT (f.json.get fileBlockNum).toInt) = [b] := hb
  simp only [judgeFile, if_neg hne, hget', hload, hacc, hb']
  cases treeAccepted sha256 mem env f treeJson <;> rfl

theorem checkBlocks_passed_or_failed (h : ∀ t, (env.validateGetFile t).1 = .success)
    (s : Bytes) (bs : List Nat) (spos cur : Nat) :
    checkBlocks sha256 mem env s bs spos cur = .passed ∨
      checkBlocks sha256 mem env s bs spos cur = .failed := by
  induction bs generalizing spos cur with
  | nil => exact .inl rfl
  | cons b bs ih =>
    unfold checkBlocks
    dsimp only
    split
    · exact .inr rfl
    split
    · exact .inr rfl
    rw [if_neg (not_not.mpr (h _))]
    split
    · exact ih _ _
    split_ifs
    · exact .inr rfl
    · exact ih _ _
    · exact ih _ _

theorem blockPasses_answering {data : Bytes} (hdata : data.length < 2 ^ 32) (x : Bytes) :
    blockPasses sha256 mem (answering env data) b x ↔
      ∀ u, hexStringToBytes x = some u → env.mallocLeafHash = true →
        mem.read u 32 = sha256 data := by
  have hgot : gotHash sha256 (answering env data) (some data) = sha256 data := by
    rw [gotHash, sgxSha256Msg, Nat.mod_eq_of_lt hdata, List.take_length]
  constructor
  · intro h u hu hm
    exact (h.2 u hu hm).trans hgot
  · intro h
    exact ⟨rfl, fun u hu hm => (h u hu hm).trans hgot.symm⟩

variable (sha256) in
theorem checkFile_valid_iff (hidx : p.wl.checkedFiles[i]? = some f)
    (hst : f.current = statusValid ∨ f.current = statusLost)
    (hget : env.persistGet = (.success, some s)) (hload : JsonParse.load mem s = .ok treeJson)
    (hb : blockIdxs env.rand (sizeT (f.json.get fileBlockNum).toInt) = [b])
    (data : Bytes) (hdata : data.length < 2 ^ 32) :
    (∃ p' g, checkFile sha256 mem (answering env data) p i = some p' ∧
        p'.wl.checkedFiles[i]? = some g ∧ g.current = statusValid) ↔
      treeAccepted sha256 mem env f treeJson = true ∧ ∃ x, LeafText s b x ∧
        ∀ u, hexStringToBytes x = some u → env.mallocLeafHash = true →
          mem.read u 32 = sha256 data := by
  have hpass := checkBlocks_singleton sha256 mem (answering env data) s b
  simp only [blockPasses_answering hdata] at hpass
  have hverdict : ∃ v, judgeFile sha256 mem (answering env data) f = some v ∧
      (v = .passed ∨ v = .failed) ∧
      (v = .passed ↔ treeAccepted sha256 mem env f treeJson = true ∧
        checkBlocks sha256 mem (answering env data) s [b] 0 0 = .passed) := by
    refine ⟨_, judgeFile_answering hst hget hload hb data, ?_, ?_⟩
    · split_ifs
      · exact checkBlocks_passed_or_failed (fun _ => rfl) s [b] 0 0
      · exact .inr rfl
    · split_ifs with hacc <;> simp [hacc]
  obtain ⟨v, hj, hcases, hiff⟩ := hverdict
  rw [← hpass, ← hiff]
  have hrun : v = .passed ∨ v = .failed → checkFile sha256 mem (answering env data) p i =
      some { p with
        wl := { p.wl with checkedFiles := p.wl.checkedFiles.modify i (applyVerdict v) }
        changed := noteChange v f i p.changed } := by
    rintro (rfl | rfl) <;> simp only [checkFile, hidx, hj]
  have hat : (p.wl.checkedFiles.modify i (applyVerdict v))[i]? = some (applyVerdict v f) := by
    rw [List.getElem?_modify_eq, hidx]
    rfl
  rw [hrun hcases]
  constructor
  · rintro ⟨p', g, hp', hg, hvalid⟩
    cases hp'
    rw [hat] at hg
    cases hg
    refine hcases.resolve_right ?_
    rintro rfl
    rw [applyVerdict_failed hst] at hvalid
    exact absurd hvalid (by decide)
  · rintro rfl
    exact ⟨_, _, rfl, hat, applyVerdict_passed hst⟩

theorem blockIdxs_lt {rand : Nat → UInt32} {n b : Nat} (h : blockIdxs rand n = [b]) : b < n := by
  unfold blockIdxs at h
  have hmin : min meaningfulValidateMinBlockNum n = 0 ∨
      min meaningfulValidateMinBlockNum n = 1 ∧ 0 < n := by
    simp only [meaningfulValidateMinBlockNum]
    omega
  obtain h0 | ⟨h1, hn⟩ := hmin
  · rw [h0] at h
    cases h
  · rw [h1] at h
    simp only [List.range_one, List.foldl_cons, List.foldl_nil, insertSorted,
      List.singleton_inj] at h
    rw [← h]
    exact Nat.mod_lt _ hn

theorem sizeT_natCast_le (n : Nat) : sizeT n ≤ n := by
  unfold sizeT
  omega

theorem checkFile_sound_iff (hsha : sha256 [] ≠ sha256 [0]) {senv : SealEnv} {tag : τ}
    {wl₀ : Workload τ} {treeText path : Bytes} {res : SealResult τ} {file : FileItem τ} {st : JSON}
    (hseal : storageSealFile sha256 mem senv tag wl₀ treeText path = some res)
    (hs : res.status = .success) (hnew : res.wl.newFiles = wl₀.newFiles ++ [file])
    (hf : f.json = file.json.put fileStatus st)
    (hst : f.current = statusValid ∨ f.current = statusLost)
    (hidx : p.wl.checkedFiles[i]? = some f)
    (hget : env.persistGet = (.success, some s)) (hload : JsonParse.load mem s = .ok treeJson)
    (hb : blockIdxs env.rand (sizeT (f.json.get fileBlockNum).toInt) = [b]) :
    ∃ block, res.blocks[b]? = some block ∧
      (BlockSound sha256 mem env p i (sgxSha256Msg sha256 block.sealed) ↔
        treeAccepted sha256 mem env f treeJson = false ∨
          TextSound sha256 mem env s b (sgxSha256Msg sha256 block.sealed)) := by
  have hnum : (f.json.get fileBlockNum).toInt = res.blocks.length := by
    rw [hf, JSON.get_put_ne _ (by decide), storageSealFile_blockNum hseal hs hnew]
  have hlt : b < res.blocks.length := by
    have h := blockIdxs_lt hb
    rw [hnum] at h
    exact lt_of_lt_of_le h (sizeT_natCast_le _)
  refine ⟨res.blocks[b], List.getElem?_eq_getElem hlt, ?_⟩
  generalize sgxSha256Msg sha256 res.blocks[b].sealed = leafHash
  have hkey := checkFile_valid_iff sha256 hidx hst hget hload hb
  constructor
  · intro hsound
    by_cases hacc : treeAccepted sha256 mem env f treeJson = true
    · refine .inr fun x hx => ?_
      -- Any data that the text lets through must have the hash of the block.
      have hall : ∀ data : Bytes, data.length < 2 ^ 32 →
          (∀ u, hexStringToBytes x = some u → env.mallocLeafHash = true →
            mem.read u 32 = sha256 data) → sha256 data = leafHash := by
        intro data hdata hp
        obtain ⟨p', g, hrun, hg, hv⟩ := (hkey data hdata).mpr ⟨hacc, x, hx, hp⟩
        exact hsound data hdata p' g hrun hg hv
      have hsome : ¬ ∀ u, hexStringToBytes x = some u → env.mallocLeafHash = true → False := by
        intro hnone
        refine hsha ((hall [] (by simp) ?_).trans (hall [0] (by simp) ?_).symm)
        · exact fun u hu hm => (hnone u hu hm).elim
        · exact fun u hu hm => (hnone u hu hm).elim
      push Not at hsome
      obtain ⟨u, hu, hm, -⟩ := hsome
      refine ⟨hm, u, hu, ?_⟩
      by_contra hcon
      push Not at hcon
      obtain ⟨hne, data, hdata, heq⟩ := hcon
      refine hne (heq.symm.trans (hall data hdata fun v hv _ => ?_))
      obtain rfl := Option.some.inj (hu.symm.trans hv)
      exact heq.symm
    · exact .inl (by simpa using hacc)
  · rintro hcond data hdata p' g hrun hg hv
    obtain ⟨hacc, x, hx, hp⟩ := (hkey data hdata).mp ⟨p', g, hrun, hg, hv⟩
    obtain hrej | htext := hcond
    · rw [hacc] at hrej
      cases hrej
    · obtain ⟨hm, u, hu, hok⟩ := htext x hx
      have hread := hp u hu hm
      obtain hleaf | hnone := hok
      · rw [← hread, hleaf]
      · exact absurd hread.symm (hnone data hdata)

def sealedAbc : Bytes :=
  str "\x7b\"links_num\":0,\"hash\":\"" ++ str "19f449d95c50fd941245c3d7865fbb3f"
    ++ str "6fbebe9e19f128bc58c3b4afd4354dcd" ++ str "\",\"size\":563\x7d"

def forgedAbc : Bytes :=
  str "\x7b\"a\":\x7b\"links_num\":0,\"hash\":\"" ++ str "b5c1fb2efc6d6b4674c2fdcc48ce01b4"
    ++ str "3a3b7c03763c0c3355de0099ee0f8c73" ++ str "\",\"size\":4\x7d,\"links_num\":0,\"hash\":\""
    ++ str "19f449d95c50fd941245c3d7865fbb3f" ++ str "6fbebe9e19f128bc58c3b4afd4354dcd"
    ++ str "\",\"size\":563\x7d"

def showTree (tree : Bytes) : CheckEnv where
  persistGet := (.success, some tree)
  merkle := fun _ => ⟨true, true, true⟩
  rand := fun _ => 0
  validateGetFile := fun _ => (.success, none)
  mallocLeafHash := true
  uninit := zeroHash

def passOver (file : FileItem Unit) : Pass Unit :=
  ⟨{ freshWorkload with
    checkedFiles := [⟨(), file.json.put fileStatus (.string (str "100"))⟩] }, [], false⟩

theorem sealedAbc_runs :
    (JsonParse.load ⟨fun _ _ => 0⟩ sealedAbc).toOption.isSome = true ∧
    Sha256.sha256 [] ≠ Sha256.sha256 [0] ∧
    (sealSmall abcLeaf (.success, some (str "abc"))).map (fun r =>
        (r.status, r.wl.newFiles.map fun file =>
          (checkFile Sha256.sha256 ⟨fun _ _ => 0⟩ (answering (showTree forgedAbc) (str "evil"))
            (passOver file) 0).map fun p' => p'.wl.checkedFiles[0]?.map FileItem.current)) =
      some (.success, [some (some statusValid)]) ∧
    (sealSmall abcLeaf (.success, some (str "abc"))).map (fun r =>
        r.blocks[0]?.map fun block =>
          decide (Sha256.sha256 (str "evil") ≠ sgxSha256Msg Sha256.sha256 block.sealed)) =
      some (some true) := by
  decide +kernel

theorem checkFile_sound_abc :
    ∃ res file block treeJson, sealSmall abcLeaf (.success, some (str "abc")) = some res ∧
      res.wl.newFiles = freshWorkload.newFiles ++ [file] ∧ res.blocks[0]? = some block ∧
      (BlockSound Sha256.sha256 ⟨fun _ _ => 0⟩ (showTree sealedAbc) (passOver file) 0
          (sgxSha256Msg Sha256.sha256 block.sealed) ↔
        treeAccepted Sha256.sha256 ⟨fun _ _ => 0⟩ (showTree sealedAbc)
            (⟨(), file.json.put fileStatus (.string (str "100"))⟩ : FileItem Unit) treeJson = false ∨
          TextSound Sha256.sha256 ⟨fun _ _ => 0⟩ (showTree sealedAbc) sealedAbc 0
            (sgxSha256Msg Sha256.sha256 block.sealed)) := by
  obtain ⟨hparse, hsha, -⟩ := sealedAbc_runs
  obtain ⟨res, hseal, hs, hone, hblocks, -⟩ := sealSmall_abc
  obtain ⟨file, hfile⟩ := List.length_eq_one_iff.mp hone
  obtain ⟨treeJson, hload⟩ : ∃ j, JsonParse.load ⟨fun _ _ => 0⟩ sealedAbc = .ok j := by
    cases h : JsonParse.load ⟨fun _ _ => 0⟩ sealedAbc with
    | error e =>
      rw [h] at hparse
      cases hparse
    | ok j => exact ⟨j, rfl⟩
  have hnew : res.wl.newFiles = freshWorkload.newFiles ++ [file] := hfile
  have hnum : (file.json.get fileBlockNum).toInt = 1 := by
    rw [storageSealFile_blockNum hseal hs hnew, hblocks]
    rfl
  have hidx : (passOver file).wl.checkedFiles[0]? =
      some ⟨(), file.json.put fileStatus (.string (str "100"))⟩ := rfl
  have hcur : (⟨(), file.json.put fileStatus (.string (str "100"))⟩ : FileItem Unit).current =
      statusValid := by
    simp only [FileItem.current, FileItem.statusChar, FileItem.status, JSON.get_put_self]
    decide
  have hget : (showTree sealedAbc).persistGet = (.success, some sealedAbc) := rfl
  have hb : blockIdxs (showTree sealedAbc).rand
      (sizeT ((file.json.put fileStatus (.string (str "100"))).get fileBlockNum).toInt) = [0] := by
    rw [JSON.get_put_ne _ (by decide), hnum]
    decide
  obtain ⟨block, hblock, hiff⟩ := checkFile_sound_iff hsha hseal hs hnew rfl
    (.inl hcur) hidx hget hload hb
  exact ⟨res, file, block, treeJson, hseal, hnew, hblock, hiff⟩

theorem checkFile_accepts_forged :
    ∃ res file p' g block, sealSmall abcLeaf (.success, some (str "abc")) = some res ∧
      res.status = .success ∧ res.wl.newFiles = [file] ∧
      checkFile Sha256.sha256 ⟨fun _ _ => 0⟩ (answering (showTree forgedAbc) (str "evil"))
        (passOver file) 0 = some p' ∧
      p'.wl.checkedFiles[0]? = some g ∧ g.current = statusValid ∧
      res.blocks[0]? = some block ∧
      Sha256.sha256 (str "evil") ≠ sgxSha256Msg Sha256.sha256 block.sealed := by
  obtain ⟨-, -, hrun, hblocks⟩ := sealedAbc_runs
  obtain ⟨res, hseal, hv⟩ := Option.map_eq_some_iff.mp hrun
  rw [hseal] at hblocks
  simp only [Prod.mk.injEq] at hv
  obtain ⟨file, hfile, hcheck⟩ := List.map_eq_singleton_iff.mp hv.2
  obtain ⟨p', hp', hcur⟩ := Option.map_eq_some_iff.mp hcheck
  obtain ⟨g, hg, hvalid⟩ := Option.map_eq_some_iff.mp hcur
  obtain ⟨block, hblock, hne⟩ := Option.map_eq_some_iff.mp (Option.some.inj hblocks)
  exact ⟨res, file, p', g, block, hseal, hv.1, hfile, hp', hg, hvalid, hblock,
    of_decide_eq_true hne⟩

end

end CrustSworker.ValidatorSound
