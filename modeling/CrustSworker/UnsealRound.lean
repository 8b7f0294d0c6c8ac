import CrustSworker.JsonLayout
import CrustSworker.SealFailure
import CrustSworker.Unseal

/-!
# Unsealing what was sealed

`storage_seal_file` names the sealed blocks by their number in the walk of the tree and by the hash
of the sealed data; `storage_unseal_file` has no tree. It gets the names as the directory lists
them, keeps what stands in front of the underscore, and hashes what it has unsealed. The name of
the directory comes back by a record of its own.
-/

namespace CrustSworker.UnsealRound

open Merkle Seal SealFailure Unseal Persistence Disk

variable {τ : Type}

/-! ### The blocks in the order of the walk -/

inductive Filed (sha256 : Bytes → Hash) (mem : Mem) (env : Pos → NodeEnv) (path : Bytes) :
    Nat → List (Pos × NodeInfo) → List Block → Prop
  | nil {k : Nat} : Filed sha256 mem env path k [] []
  | cons {k : Nat} {l : Pos × NodeInfo} {ls : List (Pos × NodeInfo)} {data out : Bytes}
      {bs : List Block} (read : (env l.1).getStorageFile = (.success, some data))
      (hash : ∃ orgHash, hexStringToBytes l.2.hash = some orgHash ∧
        mem.read orgHash 32 = sgxSha256Msg sha256 data)
      (sealing : (env l.1).sgxSealData data = some out)
      (rest : Filed sha256 mem env path (k + 1) ls bs) :
      Filed sha256 mem env path k (l :: ls) (newBlock path k ⟨l.2.hash,
        hexstringSafeWith (env l.1).mallocHexHash (sgxSha256Msg sha256 out).val, data, out⟩ :: bs)

section
variable {sha256 : Bytes → Hash} {mem : Mem} {env : Pos → NodeEnv} {path : Bytes}

theorem Filed.append {k : Nat} {ls ms : List (Pos × NodeInfo)} {bs cs : List Block}
    (h : Filed sha256 mem env path k ls bs) (g : Filed sha256 mem env path (k + bs.length) ms cs) :
    Filed sha256 mem env path k (ls ++ ms) (bs ++ cs) := by
  induction h with
  | nil => exact g
  | cons read hash sealing rest ih =>
    refine .cons read hash sealing (ih ?_)
    rwa [List.length_cons, ← Nat.add_assoc, Nat.add_right_comm] at g

theorem sealLeaf_filed {p : Pos} {n : NodeInfo} {w w' : Walk} {hash : Bytes}
    (hskip : skipped env (p, n) = false)
    (h : sealLeaf sha256 mem env path p n w = some (.success, w', hash)) :
    ∃ bs, Filed sha256 mem env path w.blockNum [(p, n)] bs ∧ w'.blocks = w.blocks ++ bs ∧
      w'.blockNum = w.blockNum + bs.length := by
  unfold sealLeaf at h
  split at h
  · rename_i status hget
    cases h
    simp [skipped, hget] at hskip
  rename_i status data hget
  split at h
  · rename_i hst
    cases h
    exact absurd rfl hst
  rename_i hst
  obtain rfl := not_not.mp hst
  split at h
  · cases h
  rename_i hsize
  split at h
  · rename_i hmalloc
    simp [skipped, hget, not_not.mp hsize, hmalloc] at hskip
  split at h
  · cases h
  rename_i orgHash horg
  split at h
  · cases h
  split at h
  · cases h
  rename_i hsha
  unfold sealBlock at h
  split at h
  · cases h
  · rename_i out hseal
    dsimp only at h
    split_ifs at h with hrep
    · exact absurd (congrArg Prod.fst (Option.some.inj h)) hrep
    · cases h
      unfold sealDataMrsigner at hseal
      split_ifs at hseal
      cases hout : (env p).sgxSealData data with
      | none =>
        rw [hout] at hseal
        cases hseal
      | some out' =>
        rw [hout] at hseal
        cases hseal
        exact ⟨_, .cons hget ⟨orgHash, horg, not_not.mp hsha⟩ hout .nil, rfl, rfl⟩
  · rename_i status out hns hseal
    cases h
    exact absurd rfl hns

mutual

theorem sealTree_filed {p : Pos} {w w' : Walk} {hash : Bytes} (t : Tree)
    (hskip : ∀ l ∈ leaves p t, skipped env l = false)
    (h : sealTree sha256 mem env path p w t = some (.success, w', hash)) :
    ∃ bs, Filed sha256 mem env path w.blockNum (leaves p t) bs ∧ w'.blocks = w.blocks ++ bs ∧
      w'.blockNum = w.blockNum + bs.length := by
  match t with
  | .node n links =>
    simp only [sealTree] at h
    simp only [leaves] at hskip ⊢
    by_cases hl : n.linksNum = 0
    · rw [if_pos hl] at hskip ⊢
      have hkept := hskip _ (List.mem_singleton.mpr rfl)
      have hsize : n.size ≠ 0 := by
        intro hn
        simp [skipped, hn] at hkept
      rw [if_neg hsize, if_pos hl] at h
      exact sealLeaf_filed hkept h
    · rw [if_neg hl] at hskip ⊢
      have hsize : n.size ≠ 0 := fun hn => hl (n.size_zero hn)
      rw [if_neg hsize, if_neg hl] at h
      split at h
      · cases h
      split at h
      · cases h
      · rename_i c sub hlinks
        cases h
        obtain ⟨bs, hb, hblocks, hnum⟩ := sealLinks_filed links hskip hlinks
        exact ⟨bs, hb, hblocks, hnum⟩
      · rename_i status c sub hns hlinks
        cases h
        exact absurd rfl hns

theorem sealLinks_filed {p : Pos} {linksNum : Int} {i : Nat} {w w' : Walk} {sub : Bytes}
    (ts : List Tree) (hskip : ∀ l ∈ leavesOf p i ts, skipped env l = false)
    (h : sealLinks sha256 mem env path p linksNum i w ts = some (.success, w', sub)) :
    ∃ bs, Filed sha256 mem env path w.blockNum (leavesOf p i ts) bs ∧ w'.blocks = w.blocks ++ bs ∧
      w'.blockNum = w.blockNum + bs.length := by
  match ts with
  | [] =>
    simp only [sealLinks] at h
    cases h
    exact ⟨[], .nil, (List.append_nil _).symm, rfl⟩
  | t :: ts =>
    simp only [sealLinks] at h
    split at h
    · cases h
    · rename_i w1 hash htree
      split at h
      · cases h
      split at h
      · cases h
      · rename_i status w2 sub' hlinks
        cases h
        obtain ⟨bs, hb, hblocks, hnum⟩ :=
          sealTree_filed t (fun l hl => hskip l (List.mem_append_left _ hl)) htree
        obtain ⟨cs, hc, hblocks', hnum'⟩ :=
          sealLinks_filed ts (fun l hl => hskip l (List.mem_append_right _ hl)) hlinks
        -- The comma only changes the text.
        have hcomma : ∃ text, (if (i : Int) ≠ linksNum - 1 then
            { w1 with tree := w1.tree ++ str "," } else w1) = { w1 with tree := text } := by
          split_ifs
          · exact ⟨_, rfl⟩
          · exact ⟨_, rfl⟩
        obtain ⟨text, htext⟩ := hcomma
        rw [htext] at hc hblocks' hnum'
        dsimp only at hc hblocks' hnum'
        rw [hnum] at hc hnum'
        rw [hblocks, List.append_assoc] at hblocks'
        refine ⟨bs ++ cs, hb.append hc, hblocks', ?_⟩
        rw [hnum', List.length_append, Nat.add_assoc]
    · rename_i status w1 hash hns htree
      cases h
      exact absurd rfl hns

end

end

/-! ### Names -/

def LowerHex (s : Bytes) : Prop := ∃ h : Hash, s = hexstringSafe h.val

def nameOf (sha256 : Bytes → Hash) (k : Nat) (data : Bytes) : Bytes :=
  blockName k (hexstringSafe (sha256 data).val)

/-- Unsealing gives back what was sealed; both fit into the enclave, and do not share a hash. -/
structure Undoes (sha256 : Bytes → Hash) (u : Unsealing) (data out : Bytes) : Prop where
  unsealed : u.unsealData out = some data ∧ u.encryptTxtLen out = data.length
  size : data.length ≤ heapMaxSize ∧ out.length ≤ heapMaxSize
  hash : sha256 out ≠ sha256 data

/-- Not to be taken for data of the enclave itself, even at the end of its buffer. -/
def Foreign (data : Bytes) : Prop := ¬ sworkerPrivateTag <+: data ∧ ¬ data <+: sworkerPrivateTag

structure Entry (sha256 : Bytes → Hash) (env : Pos → NodeEnv) (u : Unsealing)
    (ls : List (Pos × NodeInfo)) (k : Nat) (data out : Bytes) : Prop where
  leaf : ∃ l, ls[k]? = some l ∧ l.2.hash = hexstringSafe (sha256 data).val ∧
    (env l.1).getStorageFile = (.success, some data) ∧ (env l.1).sgxSealData data = some out
  undoes : Undoes sha256 u data out
  foreign : Foreign data

section
variable {sha256 : Bytes → Hash} {mem : Mem} {env : Pos → NodeEnv} {u : Unsealing}
  {ls : List (Pos × NodeInfo)} {j k : Nat} {data out data' out' : Bytes}

theorem nameOf_inj (h : nameOf sha256 j data = nameOf sha256 k data') :
    j = k ∧ sha256 data = sha256 data' := by
  obtain ⟨hjk, hhash⟩ := blockName_inj h
  refine ⟨hjk, Subtype.ext ?_⟩
  have hpairs := congrArg hexPairs hhash
  rwa [JsonParse.hexPairs_hexstringSafe, JsonParse.hexPairs_hexstringSafe] at hpairs

theorem Entry.unique (h : Entry sha256 env u ls k data out) (g : Entry sha256 env u ls k data' out') :
    data = data' ∧ out = out' := by
  obtain ⟨l, hl, -, hread, hseal⟩ := h.leaf
  obtain ⟨l', hl', -, hread', hseal'⟩ := g.leaf
  obtain rfl := Option.some.inj (hl.symm.trans hl')
  rw [hread] at hread'
  obtain rfl := Option.some.inj (Prod.ext_iff.mp hread').2
  rw [hseal] at hseal'
  exact ⟨rfl, Option.some.inj hseal'⟩

theorem Entry.name_ne (h : Entry sha256 env u ls j data out) (g : Entry sha256 env u ls k data' out') :
    nameOf sha256 j out ≠ nameOf sha256 k data' := by
  intro heq
  obtain ⟨rfl, hsha⟩ := nameOf_inj heq
  obtain ⟨rfl, rfl⟩ := h.unique g
  exact h.undoes.hash hsha

end

/-! ### The sealed directory -/

def sealMove (path : Bytes) (b : Block) : Move UInt8 Bytes :=
  ⟨nameIn path b.oldPath, nameIn path b.newPath, b.sealed⟩

theorem replaceAll_eq (path : Bytes) (files : Disk UInt8 Bytes) (bs : List Block) :
    replaceAll path files bs = files.moveAll (bs.map (sealMove path)) := by
  rw [replaceAll, moveAll, List.foldl_map]
  rfl

def HoldsBlocks (env : Pos → NodeEnv) (ls : List (Pos × NodeInfo)) (files : Disk UInt8 Bytes) : Prop :=
  ∀ name data, files name = some data ↔ ∃ k l, ls[k]? = some l ∧ name = blockName k l.2.hash ∧
    (env l.1).getStorageFile = (.success, some data)

section
variable {sha256 : Bytes → Hash} {mem : Mem} {env : Pos → NodeEnv} {u : Unsealing}
  {ls : List (Pos × NodeInfo)} {path : Bytes} {files : Disk UInt8 Bytes} {bs : List Block}

structure Sealable (sha256 : Bytes → Hash) (env : Pos → NodeEnv) (u : Unsealing)
    (ls : List (Pos × NodeInfo)) (files : Disk UInt8 Bytes) : Prop where
  handled : ∀ l ∈ ls, skipped env l = false
  blocks : HoldsBlocks env ls files
  lower : ∀ l ∈ ls, LowerHex l.2.hash
  hexText : ∀ l ∈ ls, (env l.1).mallocHexHash = true
  undoes : ∀ l ∈ ls, ∀ data out, (env l.1).getStorageFile = (.success, some data) →
    (env l.1).sgxSealData data = some out → Undoes sha256 u data out
  foreign : ∀ name data, files name = some data → Foreign data

def entryMove (sha256 : Bytes → Hash) (k : Nat) (data out : Bytes) : Move UInt8 Bytes :=
  ⟨nameOf sha256 k data, nameOf sha256 k out, out⟩

structure Sealed (sha256 : Bytes → Hash) (env : Pos → NodeEnv) (u : Unsealing)
    (ls : List (Pos × NodeInfo)) (k : Nat) (ms : List (Move UInt8 Bytes)) : Prop where
  entry : ∀ m ∈ ms, ∃ j data out, k ≤ j ∧ Entry sha256 env u ls j data out ∧
    m = entryMove sha256 j data out
  all : ∀ j data out, k ≤ j → Entry sha256 env u ls j data out → entryMove sha256 j data out ∈ ms
  leaf : ∀ j l, k ≤ j → ls[j]? = some l → ∃ data out, Entry sha256 env u ls j data out
  apart : ms.Pairwise Move.Apart

theorem sealed_of_filed (h : Sealable sha256 env u ls files) {k : Nat} {rest : List (Pos × NodeInfo)}
    (hrest : ls.drop k = rest) (hf : Filed sha256 mem env path k rest bs) :
    Sealed sha256 env u ls k (bs.map (sealMove path)) := by
  induction hf with
  | @nil k =>
    have hend : ∀ j l, k ≤ j → ls[j]? ≠ some l := fun j l hj hl => by
      have hlen := (List.getElem?_eq_some_iff.mp hl).1
      have hdrop := List.drop_eq_nil_iff.mp hrest
      omega
    refine ⟨List.forall_mem_nil _, fun j data out hj hentry => ?_,
      fun j l hj hl => absurd hl (hend j l hj), List.Pairwise.nil⟩
    obtain ⟨l, hl, -⟩ := hentry.leaf
    exact absurd hl (hend j l hj)
  | @cons k l rest data out bs read hash sealing _ ih =>
    have hl : ls[k]? = some l := by
      rw [← List.head?_drop, hrest]
      rfl
    have hmem : l ∈ ls := List.mem_of_getElem? hl
    obtain ⟨x, hx⟩ := h.lower l hmem
    have hundoes := h.undoes l hmem data out read sealing
    obtain ⟨orgHash, horg, hread⟩ := hash
    have hxdata : x = sha256 data := by
      rw [hx, JsonParse.hexStringToBytes_hexstringSafe (byteArr_ne_nil x (by decide))] at horg
      cases horg
      rw [mem.read_full, sgxSha256Msg_of_le sha256 hundoes.size.1] at hread
      exact hread
    rw [hxdata] at hx
    have hentry : Entry sha256 env u ls k data out :=
      ⟨⟨l, hl, hx, read, sealing⟩, hundoes,
        h.foreign (blockName k l.2.hash) data ((h.blocks _ _).mpr ⟨k, l, hl, rfl, read⟩)⟩
    have hmove : sealMove path (newBlock path k ⟨l.2.hash,
        hexstringSafeWith (env l.1).mallocHexHash (sgxSha256Msg sha256 out).val, data, out⟩) =
          entryMove sha256 k data out := by
      rw [sealMove, newBlock]
      dsimp only
      rw [nameIn_blockPath, nameIn_blockPath, hexstringSafeWith_hash, h.hexText l hmem, if_pos rfl,
        sgxSha256Msg_of_le sha256 hundoes.size.2, hx]
      rfl
    have hnext := ih (by rw [← List.tail_drop, hrest]; rfl)
    rw [List.map_cons, hmove]
    refine ⟨List.forall_mem_cons.mpr ⟨⟨k, data, out, le_rfl, hentry, rfl⟩, fun m hm => ?_⟩,
      fun j data' out' hj hentry' => ?_, fun j l' hj hl' => ?_, List.pairwise_cons.mpr ⟨fun m hm => ?_, hnext.apart⟩⟩
    · obtain ⟨j, data', out', hj, hrest⟩ := hnext.entry m hm
      exact ⟨j, data', out', by omega, hrest⟩
    · rcases hj.eq_or_lt with rfl | hj
      · obtain ⟨rfl, rfl⟩ := hentry.unique hentry'
        exact List.mem_cons_self
      · exact List.mem_cons_of_mem _ (hnext.all j data' out' hj hentry')
    · rcases hj.eq_or_lt with rfl | hj
      · exact ⟨data, out, hentry⟩
      · exact hnext.leaf j l' hj hl'
    · obtain ⟨j, data', out', hj, -, rfl⟩ := hnext.entry m hm
      have hne : ∀ s t, nameOf sha256 k s ≠ nameOf sha256 j t := fun s t heq => by
        have := (nameOf_inj heq).1
        omega
      exact ⟨hne _ _, hne _ _, hne _ _, hne _ _⟩

variable {ms : List (Move UInt8 Bytes)}

theorem Sealed.self (h : Sealed sha256 env u ls 0 ms) : ∀ m ∈ ms, m.old ≠ m.new := by
  intro m hm
  obtain ⟨j, data, out, -, hentry, rfl⟩ := h.entry m hm
  exact (hentry.name_ne hentry).symm

theorem Sealable.file_iff (h : Sealable sha256 env u ls files) (hms : Sealed sha256 env u ls 0 ms)
    (name data : Bytes) :
    files name = some data ↔ ∃ k out, Entry sha256 env u ls k data out ∧ name = nameOf sha256 k data := by
  rw [h.blocks name data]
  constructor
  · rintro ⟨k, l, hl, rfl, hread⟩
    obtain ⟨data', out, hentry⟩ := hms.leaf k l (Nat.zero_le k) hl
    obtain ⟨l', hl', hhash, hread', -⟩ := hentry.leaf
    obtain rfl := Option.some.inj (hl.symm.trans hl')
    rw [hread] at hread'
    obtain rfl := Option.some.inj (Prod.ext_iff.mp hread').2
    exact ⟨k, out, hentry, by rw [nameOf, hhash]⟩
  · rintro ⟨k, out, hentry, rfl⟩
    obtain ⟨l, hl, hhash, hread, -⟩ := hentry.leaf
    exact ⟨k, l, hl, by rw [nameOf, hhash], hread⟩

theorem Sealable.sealed_name_free (h : Sealable sha256 env u ls files)
    (hms : Sealed sha256 env u ls 0 ms) {k : Nat} {data out : Bytes}
    (hentry : Entry sha256 env u ls k data out) : files (nameOf sha256 k out) = none := by
  by_contra hne
  obtain ⟨data', hdata'⟩ := Option.ne_none_iff_exists'.mp hne
  obtain ⟨j, out', hentry', heq⟩ := (h.file_iff hms _ _).mp hdata'
  exact hentry.name_ne hentry' heq

theorem Sealable.sealed_iff (h : Sealable sha256 env u ls files) (hms : Sealed sha256 env u ls 0 ms)
    (name out : Bytes) :
    files.moveAll ms name = some out ↔
      ∃ k data, Entry sha256 env u ls k data out ∧ name = nameOf sha256 k out := by
  have hat := @moveAll_at _ _ _ files ms hms.self hms.apart
  constructor
  · intro hname
    by_cases hm : ∃ m ∈ ms, name = m.old ∨ name = m.new
    · obtain ⟨m, hm, hname'⟩ := hm
      obtain ⟨hnew, hold⟩ := hat hm
      obtain ⟨k, data, out', -, hentry, rfl⟩ := hms.entry m hm
      rcases hname' with rfl | rfl
      · rw [hold] at hname
        cases hname
      · rw [hnew] at hname
        cases hname
        exact ⟨k, data, hentry, rfl⟩
    · push Not at hm
      rw [moveAll_other hm] at hname
      obtain ⟨k, out', hentry, rfl⟩ := (h.file_iff hms _ _).mp hname
      exact absurd rfl (hm _ (hms.all k out out' (Nat.zero_le k) hentry)).1
  · rintro ⟨k, data, hentry, rfl⟩
    exact (hat (hms.all k data out (Nat.zero_le k) hentry)).1

end

/-! ### The loop over the listed files -/

section
variable (sha256 : Bytes → Hash) (u : Unsealing) (dir : Bytes)

/-- A host that serves the files as they are when it is asked, replaces them, and has memory. -/
def Served (env : Nat → FileEnv) : List Bytes → Nat → Disk UInt8 Bytes → Prop
  | [], _, _ => True
  | file :: files, i, d =>
    (env i).getStorageFile = (.success, d file) ∧ (env i).mallocSealed = true ∧
      (env i).reallocData = true ∧ (env i).replaceFile = .success ∧ (env i).mallocHexHash = true ∧
      ∀ sealed data, d file = some sealed → u.unsealData sealed = some data →
        Served env files (i + 1)
          (d.move ⟨file, nameIn dir (unsealedPath sha256 true dir file data), data⟩)

end

def unsealMove (dir : Bytes) (r : Replaced) : Move UInt8 Bytes :=
  ⟨nameIn dir r.oldPath, nameIn dir r.newPath, r.data⟩

def backMove (sha256 : Bytes → Hash) (k : Nat) (data out : Bytes) : Move UInt8 Bytes :=
  ⟨nameOf sha256 k out, nameOf sha256 k data, data⟩

theorem tagOf_blockName (k : Nat) (hash : Bytes) : tagOf (blockName k hash) = decNat k := by
  have hskip : TextSearch.Skips (str "_") (decNat k) :=
    TextSearch.skips_of_not_mem fun h => absurd (decNat_digits k _ h) (by decide)
  have hname : blockName k hash = decNat k ++ str "_" ++ hash := rfl
  have hfirst : TextSearch.FirstAt (str "_") ((blockName k hash).drop 0) (decNat k) hash := by
    rw [List.drop_zero, hname]
    exact hskip.firstAt hash
  rw [tagOf, TextSearch.find_complete (Nat.zero_le _) hfirst, Option.getD_some, Nat.add_zero, hname, List.append_assoc, List.take_left]

theorem isPrivate_foreign (mem : Mem) {data : Bytes} (h : Foreign data) (bufferLen : Nat) :
    isPrivate mem data bufferLen = false := by
  obtain ⟨htag, hdata⟩ := h
  have hread : ∀ buf : Bytes, (mem.read buf sworkerPrivateTag.length).val = sworkerPrivateTag →
      buf.take sworkerPrivateTag.length <+: sworkerPrivateTag := by
    intro buf heq
    have hstart : buf.take sworkerPrivateTag.length <+: (mem.read buf sworkerPrivateTag.length).val :=
      List.prefix_append _ _
    rwa [heq] at hstart
  rw [isPrivate, beq_eq_false_iff_ne]
  intro heq
  have hstart := hread _ heq
  by_cases hlen : sworkerPrivateTag.length ≤ data.length
  · rw [List.take_append_of_le_length hlen] at hstart
    have htake : (data.take sworkerPrivateTag.length).length = sworkerPrivateTag.length :=
      List.length_take_of_le hlen
    exact htag (hstart.eq_of_length htake ▸ List.take_prefix _ _)
  · refine hdata (List.IsPrefix.trans ?_ hstart)
    rw [List.take_append, List.take_of_length_le (not_le.mp hlen).le]
    exact List.prefix_append _ _

section
variable {sha256 : Bytes → Hash} {mem : Mem} {env : Pos → NodeEnv} {u : Unsealing}
  {ls : List (Pos × NodeInfo)} {dir : Bytes} {fileEnv : Nat → FileEnv}

theorem unsealedPath_entry {k : Nat} {data out : Bytes} (h : Entry sha256 env u ls k data out) :
    unsealedPath sha256 true dir (nameOf sha256 k out) data =
      dir ++ str "/" ++ nameOf sha256 k data := by
  rw [unsealedPath, nameOf, tagOf_blockName, hexstringSafeWith_hash, if_pos rfl,
    sgxSha256Msg_of_le sha256 h.undoes.size.1, nameOf, blockName]
  simp only [List.append_assoc]

theorem nameIn_append (dir name : Bytes) : nameIn dir (dir ++ str "/" ++ name) = name := by
  have hlen : dir.length + 1 = (dir ++ str "/").length := by
    rw [List.length_append]
    rfl
  rw [nameIn, hlen, List.drop_left]

/-- By induction on the list: what is replaced is not read again. -/
theorem unsealFiles_entries {names : List Bytes} (hnodup : names.Nodup) {d : Disk UInt8 Bytes}
    (hfiles : ∀ f ∈ names, ∃ k data out, Entry sha256 env u ls k data out ∧
      f = nameOf sha256 k out ∧ d f = some out) {i : Nat}
    (hserved : Served sha256 u dir fileEnv names i d) (bufferLen : Nat) :
    ∃ rs, unsealFiles sha256 mem u dir fileEnv names i bufferLen = some ⟨.success, true, rs⟩ ∧
      List.Forall₂ (fun f r => ∃ k data out, Entry sha256 env u ls k data out ∧
        f = nameOf sha256 k out ∧ unsealMove dir r = backMove sha256 k data out) names rs := by
  induction names generalizing d i bufferLen with
  | nil => exact ⟨[], rfl, .nil⟩
  | cons f names ih =>
    obtain ⟨hf, hnodup'⟩ := List.nodup_cons.mp hnodup
    obtain ⟨k, data, out, hentry, rfl, hread⟩ := hfiles f List.mem_cons_self
    obtain ⟨hget, hsealed, hrealloc, hreplace, hhex, hnext⟩ := hserved
    have hnext := hnext out data hread hentry.undoes.unsealed.1
    rw [unsealedPath_entry hentry, nameIn_append] at hnext
    have hrest : ∀ g ∈ names, ∃ k' data' out', Entry sha256 env u ls k' data' out' ∧
        g = nameOf sha256 k' out' ∧
        d.move ⟨nameOf sha256 k out, nameOf sha256 k data, data⟩ g = some out' := by
      intro g hg
      obtain ⟨k', data', out', hentry', rfl, hread'⟩ := hfiles g (List.mem_cons_of_mem _ hg)
      refine ⟨k', data', out', hentry', rfl, ?_⟩
      rw [move_other (ne_of_mem_of_not_mem hg hf) (hentry'.name_ne hentry), hread']
    obtain ⟨rs, hrun, hall⟩ := ih hnodup' hrest hnext (max bufferLen data.length)
    have hlen : 0 < data.length := by
      refine List.length_pos_iff.mpr fun hnil => hentry.foreign.2 ?_
      rw [hnil]
      exact List.nil_prefix
    have hout : encMalloc true out.length = true := by simp [encMalloc, hentry.undoes.size.2]
    have hdata : encMalloc true data.length = true := by simp [encMalloc, hentry.undoes.size.1]
    refine ⟨⟨dir ++ str "/" ++ nameOf sha256 k out,
      unsealedPath sha256 true dir (nameOf sha256 k out) data, data⟩ :: rs, ?_, .cons ?_ hall⟩
    · rw [unsealFiles, hget, hread]
      dsimp only
      rw [hentry.undoes.unsealed.2, hentry.undoes.unsealed.1, hsealed, hrealloc, hreplace, hhex,
        if_neg (not_not.mpr rfl), if_neg (not_not.mpr hout), if_neg fun h => h.2 hdata]
      dsimp only
      rw [if_neg (by omega), isPrivate_foreign mem hentry.foreign, if_neg (by decide),
        if_neg (not_not.mpr rfl), hrun]
      rfl
    · refine ⟨k, data, out, hentry, rfl, ?_⟩
      rw [unsealMove, backMove]
      dsimp only
      rw [unsealedPath_entry hentry, nameIn_append, nameIn_append]

theorem back_moves {names : List Bytes} {rs : List Replaced} (hnodup : names.Nodup)
    (h : List.Forall₂ (fun f r => ∃ k data out, Entry sha256 env u ls k data out ∧
      f = nameOf sha256 k out ∧ unsealMove dir r = backMove sha256 k data out) names rs) :
    (∀ n ∈ rs.map (unsealMove dir), n.old ∈ names ∧
      ∃ k data out, Entry sha256 env u ls k data out ∧ n = backMove sha256 k data out) ∧
    (∀ f ∈ names, ∃ n ∈ rs.map (unsealMove dir), n.old = f) ∧
    (rs.map (unsealMove dir)).Pairwise Move.Apart := by
  induction h with
  | nil => exact ⟨List.forall_mem_nil _, List.forall_mem_nil _, List.Pairwise.nil⟩
  | @cons f r names rs hhead _ ih =>
    obtain ⟨hf, hnodup⟩ := List.nodup_cons.mp hnodup
    obtain ⟨hmoves, hnames, hapart⟩ := ih hnodup
    obtain ⟨k, data, out, hentry, rfl, hmove⟩ := hhead
    rw [List.map_cons, hmove]
    refine ⟨List.forall_mem_cons.mpr ⟨⟨List.mem_cons_self, k, data, out, hentry, rfl⟩, fun n hn => ?_⟩,
      List.forall_mem_cons.mpr ⟨⟨_, List.mem_cons_self, rfl⟩, fun f hf => ?_⟩,
      List.pairwise_cons.mpr ⟨fun n hn => ?_, hapart⟩⟩
    · obtain ⟨hold, hentry'⟩ := hmoves n hn
      exact ⟨List.mem_cons_of_mem _ hold, hentry'⟩
    · obtain ⟨n, hn, hold⟩ := hnames f hf
      exact ⟨n, List.mem_cons_of_mem _ hn, hold⟩
    · obtain ⟨hold, k', data', out', hentry', rfl⟩ := hmoves n hn
      have hne : nameOf sha256 k out ≠ nameOf sha256 k' out' := by
        intro heq
        rw [heq] at hf
        exact hf hold
      refine ⟨hne, hentry.name_ne hentry', (hentry'.name_ne hentry).symm, fun heq => ?_⟩
      obtain ⟨rfl, -⟩ := nameOf_inj heq
      obtain ⟨-, rfl⟩ := hentry.unique hentry'
      exact hne rfl

end

/-! ### The record of the original name -/

def metaJson (n : NodeInfo) : JSON :=
  (JSON.null.put fileOldHash (.string n.hash)).put fileOldSize (.integral n.dataSize)

section
variable {mem : Mem} (floatText : Bytes → Bytes → Bytes)

theorem toStr_lowerHex {s : Bytes} (h : LowerHex s) : (JSON.string s).toStr = s := by
  obtain ⟨x, rfl⟩ := h
  exact JsonParse.jsonEscape_of_noEscape (JsonParse.noEscape_hexstringSafe _)

theorem load_metaJson {n : NodeInfo} (hhash : LowerHex n.hash) (hsize : JsonParse.IsLong n.dataSize) :
    JsonParse.load mem ((metaJson n).dump floatText) = .ok (metaJson n) := by
  have huntagged : JsonParse.Untagged n.hash := by
    obtain ⟨x, hx⟩ := hhash
    rw [hx]
    exact JsonParse.untagged_hexstringSafe _
  have hkeys : ∀ key, JsonParse.NoEscape key → ∃ k, key = jsonEscape k := fun key h =>
    ⟨key, (JsonParse.jsonEscape_of_noEscape h).symm⟩
  have hloaded : JsonParse.Loaded (metaJson n) :=
    (JsonParse.Loaded.null.put (hkeys _ (by decide)) (.string _)).put (hkeys _ (by decide))
      (.integral hsize)
  have hplain : JsonParse.Plain (metaJson n) :=
    (JsonParse.Plain.null.put (by decide) (.string huntagged)).put (by decide) (.integral _)
  obtain ⟨fields, hfields⟩ : ∃ fields, metaJson n = .object fields := ⟨_, rfl⟩
  rw [hfields] at hloaded hplain ⊢
  exact JsonParse.load_dump floatText hloaded hplain

theorem metaJson_oldHash {n : NodeInfo} (hhash : LowerHex n.hash) :
    ((metaJson n).get fileOldHash).toStr = n.hash := by
  rw [metaJson, JSON.get_put_ne _ (by decide), JSON.get_put_self, toStr_lowerHex hhash]

end

/-! ### Paths -/

theorem findLastOf_last {c : UInt8} {t : Bytes} (ht : c ∉ t) (s : Bytes) :
    findLastOf c (s ++ c :: t) = some s.length := by
  have hnone : ∀ t : Bytes, c ∉ t → findLastOf c t = none := by
    intro t ht
    induction t with
    | nil => rfl
    | cons d t ih =>
      obtain ⟨hd, ht⟩ := not_or.mp (mt List.mem_cons.mpr ht)
      rw [findLastOf, ih ht]
      dsimp only
      rw [if_neg (Ne.symm hd)]
  induction s with
  | nil =>
    rw [List.nil_append, findLastOf, hnone t ht]
    dsimp only
    rw [if_pos rfl, List.length_nil]
  | cons d s ih =>
    rw [List.cons_append, findLastOf, ih]
    rfl

theorem slash_not_mem {s : Bytes} (h : LowerHex s) : slash ∉ s := by
  obtain ⟨x, rfl⟩ := h
  intro hmem
  obtain ⟨n, hn, hc⟩ := JsonParse.mem_hexstringSafe hmem
  have hall : ∀ n < 16, slash ≠ hextable n := by decide
  exact hall n hn hc

/-- A directory of that name in `parent`, in whose path the name stands nowhere before. -/
structure Placed (parent name path : Bytes) : Prop where
  split : path = parent ++ str "/" ++ name
  first : TextSearch.find name path 0 = some (parent.length + 1)

section
variable {parent name path newName : Bytes}

theorem renamedPath_placed (h : Placed parent name path) :
    renamedPath path name newName = parent ++ str "/" ++ newName := by
  have hlen : parent.length + 1 = (parent ++ str "/").length := by
    rw [List.length_append]
    rfl
  rw [renamedPath, h.first, Option.getD_some, h.split, hlen, List.take_left]

theorem path_parts (hname : LowerHex name) :
    upDir (parent ++ str "/" ++ name) = parent ∧ lastPart (parent ++ str "/" ++ name) = name := by
  have hpath : parent ++ str "/" ++ name = parent ++ slash :: name := by
    rw [List.append_assoc]
    rfl
  have hlast := findLastOf_last (slash_not_mem hname) parent
  refine ⟨?_, ?_⟩
  · rw [upDir, hpath, hlast, Option.getD_some, List.take_left]
  · have hdrop : (parent ++ slash :: name).drop (parent.length + 1) = name := by
      rw [← List.drop_drop, List.drop_left]
      rfl
    rw [lastPart, hpath, hlast]
    exact hdrop

end

/-! ### The round trip -/

section
variable (sha256 : Bytes → Hash) (mem : Mem) (floatText : Bytes → Bytes → Bytes)

def metaRecord (senv : SealEnv) (path : Bytes) (tree : Tree) : Option (Bytes × Bytes) :=
  match sealTree sha256 mem senv.node path [] ⟨[], 0, 0, []⟩ tree with
  | some (.success, _, newRoot) => some (newRoot ++ str "_meta", (metaJson tree.info).dump floatText)
  | _ => none

def unsealedAfter (dir : Directory) (r : UnsealResult) : Directory where
  path := if r.status = .success then r.newPath.getD dir.path else dir.path
  files := dir.files.moveAll (r.replaced.map (unsealMove dir.path))

end

section
variable {sha256 : Bytes → Hash} {mem : Mem} {senv : SealEnv} {tag : τ} {wl : Workload τ}
  {treeText : Bytes} {treeJson : JSON} {dir : Directory} {res : SealResult τ}

theorem directoryAfter_sealed (left : Option Bytes)
    (hload : JsonParse.load mem treeText = .ok treeJson)
    (h : storageSealFile sha256 mem senv tag wl treeText dir.path = some res)
    (hs : res.status = .success) :
    ∃ w newRoot, sealTree sha256 mem senv.node dir.path [] ⟨[], 0, 0, []⟩ (treeOf treeJson) =
        some (.success, w, newRoot) ∧ hexStringToBytes newRoot ≠ none ∧
      directoryAfter sha256 mem senv wl treeJson left dir =
        ⟨renamedPath dir.path (treeOf treeJson).info.hash newRoot,
          replaceAll dir.path dir.files w.blocks⟩ := by
  unfold storageSealFile at h
  dsimp only at h
  split_ifs at h with hlimit
  · cases h
    cases hs
  rw [hload] at h
  dsimp only at h
  split_ifs at h with hsize
  · cases h
    cases hs
  split at h
  · rename_i hvalid
    split at h
    · cases h
    · rename_i w newRoot hwalk
      cases h
      obtain ⟨hdecoded, hfinish⟩ := addSealed_success_iff.mp hs
      refine ⟨w, newRoot, hwalk, hdecoded, ?_⟩
      rw [directoryAfter, if_neg (not_or.mpr ⟨hlimit, hsize⟩), if_neg (not_not.mpr hvalid), hwalk]
      dsimp only
      rw [if_pos rfl, if_pos hfinish.1]
    · rename_i status w newRoot hns hwalk
      cases h
      exact absurd hs hns
  · rename_i status hns
    cases h
    exact absurd hs hns

theorem meta_directories {parent : Bytes} {root newRoot : Bytes} {n : NodeInfo} (hroot : LowerHex n.hash)
    (hnew : LowerHex newRoot) (hn : n.hash = root) :
    metaKey (parent ++ str "/" ++ newRoot) = newRoot ++ str "_meta" ∧
      newDir (parent ++ str "/" ++ newRoot) (metaJson n) = parent ++ str "/" ++ root := by
  obtain ⟨hup, hlast⟩ := @path_parts parent _ hnew
  rw [metaKey, newDir, hup, hlast, metaJson_oldHash hroot, hn]
  exact ⟨rfl, rfl⟩

/-- A host that does what it is asked gets the directory back that it had before the seal, whatever
the shape of the tree is and in whatever order the sealed files are listed. -/
theorem unseal_undoes_seal {parent : Bytes} {u : Unsealing} {uenv : UnsealEnv} {names : List Bytes}
    {left : Option Bytes} {sealed : Directory} {floatText : Bytes → Bytes → Bytes}
    (hload : JsonParse.load mem treeText = .ok treeJson)
    (h : storageSealFile sha256 mem senv tag wl treeText dir.path = some res)
    (hs : res.status = .success)
    (hsealable : Sealable sha256 senv.node u (leaves [] (treeOf treeJson)) dir.files)
    (hroot : LowerHex (treeOf treeJson).info.hash)
    (hplaced : Placed parent (treeOf treeJson).info.hash dir.path)
    (hsealed : directoryAfter sha256 mem senv wl treeJson left dir = sealed)
    (hnodup : names.Nodup) (hnames : ∀ name, name ∈ names ↔ sealed.files name ≠ none)
    (hserved : Served sha256 u sealed.path uenv.file names 0 sealed.files)
    (hmeta : ∀ key text, metaRecord sha256 mem floatText senv dir.path (treeOf treeJson) =
      some (key, text) → uenv.persistGet key = (.success, some text))
    (hrename : uenv.renameDir = .success) :
    ∃ r, storageUnsealFile sha256 mem u uenv names sealed.path = some r ∧ r.status = .success ∧
      unsealedAfter sealed r = dir := by
  obtain ⟨w, newRoot, hwalk, hdecoded, hafter⟩ := directoryAfter_sealed left hload h hs
  obtain ⟨bs, hfiled, hblocks, -⟩ := sealTree_filed _ hsealable.handled hwalk
  rw [List.nil_append] at hblocks
  have hms := sealed_of_filed hsealable List.drop_zero hfiled
  have hnew : LowerHex newRoot := by
    rcases sealTree_root hwalk with ⟨rfl, -⟩ | ⟨x, rfl⟩
    · exact hroot
    · rw [decoded_with] at hdecoded
      rw [hdecoded, hexstringSafeWith_hash, if_pos rfl]
      exact ⟨x, rfl⟩
  rw [hsealed, renamedPath_placed hplaced, replaceAll_eq, hblocks] at hafter
  subst hafter
  dsimp only at hnames hserved ⊢
  have hlong : JsonParse.IsLong (treeOf treeJson).info.dataSize := by
    rw [MerkleExact.info_treeOf]
    exact ((JsonParse.load_loaded hload).get mtSize).toInt_long
  obtain ⟨hkey, hdir⟩ := @meta_directories parent _ newRoot _ hroot hnew rfl
  have hrecord := hmeta _ _ (by rw [metaRecord, hwalk])
  have hfiles : ∀ f ∈ names, ∃ k data out,
      Entry sha256 senv.node u (leaves [] (treeOf treeJson)) k data out ∧ f = nameOf sha256 k out ∧
        dir.files.moveAll (bs.map (sealMove dir.path)) f = some out := by
    intro f hf
    obtain ⟨out, hout⟩ := Option.ne_none_iff_exists'.mp ((hnames f).mp hf)
    obtain ⟨k, data, hentry, hname⟩ := (hsealable.sealed_iff hms f out).mp hout
    exact ⟨k, data, out, hentry, hname, hout⟩
  obtain ⟨rs, hrun, hall⟩ := @unsealFiles_entries _ mem _ _ _ _ _ _ hnodup _ hfiles _ hserved 0
  refine ⟨⟨.success, some dir.path, rs⟩, ?_, rfl, ?_⟩
  · rw [storageUnsealFile, hkey, hrecord]
    dsimp only
    rw [if_neg (not_not.mpr rfl), load_metaJson floatText hroot hlong]
    dsimp only
    rw [hrun]
    dsimp only
    rw [if_pos rfl, hrename, hdir, ← hplaced.split]
  · obtain ⟨hmoves, hback, hapart⟩ := back_moves hnodup hall
    have hfiles : (dir.files.moveAll (bs.map (sealMove dir.path))).moveAll
        (rs.map (unsealMove (parent ++ str "/" ++ newRoot))) = dir.files := by
      refine moveAll_back hms.self hapart (fun m hm => ?_) (fun n hn => ?_) fun m hm => ?_
      · obtain ⟨k, data, out, -, hentry, rfl⟩ := hms.entry m hm
        exact hsealable.sealed_name_free hms hentry
      · obtain ⟨-, k, data, out, hentry, rfl⟩ := hmoves n hn
        exact ⟨_, hms.all k data out (Nat.zero_le k) hentry, rfl, rfl,
          (hsealable.file_iff hms _ _).mpr ⟨k, out, hentry, rfl⟩⟩
      · obtain ⟨k, data, out, -, hentry, rfl⟩ := hms.entry m hm
        have hname : nameOf sha256 k out ∈ names := by
          rw [hnames, (hsealable.sealed_iff hms _ out).mpr ⟨k, data, hentry, rfl⟩]
          exact Option.some_ne_none _
        obtain ⟨n, hn, hold⟩ := hback _ hname
        obtain ⟨-, k', data', out', hentry', rfl⟩ := hmoves n hn
        obtain ⟨rfl, -⟩ := nameOf_inj hold
        obtain ⟨rfl, rfl⟩ := hentry.unique hentry'
        exact ⟨_, hn, rfl, rfl⟩
    rw [unsealedAfter]
    dsimp only
    rw [if_pos rfl, Option.getD_some, hfiles]

end

/-! ### A file of one block -/

def unsealHost : Unsealing where
  encryptTxtLen := fun out => out.length - 560
  unsealData := fun out => some (out.drop 560)

def oneEnv : SealEnv := hostEnv (.success, some (str "abc"))

def sealedBlock : Bytes := List.replicate 560 0 ++ str "abc"

def oneName : Bytes := hexstringSafe (Sha256.sha256 (str "abc")).val

def sealedName : Bytes := hexstringSafe (Sha256.sha256 sealedBlock).val

def oneBlock : SealedTree :=
  let b : Block := ⟨[], [], [], str "abc"⟩
  .leaf b (hexstringSafe (SealedTree.blockHash Sha256.sha256 b).val)

def oneInfo : NodeInfo := infoOf oneBlock.json

def oneDirectory : Directory where
  path := str "d" ++ str "/" ++ oneName
  files := fun name => if name = blockName 0 oneName then some (str "abc") else none

theorem oneBlock_proper : oneBlock.Proper Sha256.sha256 := .leaf _

theorem oneInfo_hash : oneInfo.hash = oneName := by
  have hlen : (str "abc").length ≤ heapMaxSize := by decide
  have hhash : oneBlock.hash Sha256.sha256 = Sha256.sha256 (str "abc") := by
    rw [oneBlock, SealedTree.hash, SealedTree.blockHash, sgxSha256Msg_of_le _ hlen]
  rw [oneInfo, MerkleExact.hash_infoOf, oneBlock_proper.hashText_json, hhash, oneName]

theorem one_leaves : leaves [] (treeOf oneBlock.json) = [([], oneInfo)] := rfl

theorem one_runs :
    (oneBlock.text.length ≤ heapMaxSize ∧ Sha256.sha256 sealedBlock ≠ Sha256.sha256 (str "abc")) ∧
    (sealTree Sha256.sha256 zeroMem oneEnv.node oneDirectory.path [] ⟨[], 0, 0, []⟩
      (treeOf oneBlock.json)).map (fun r => (r.1, r.2.2)) = some (.success, sealedName) ∧
    hexStringToBytes sealedName ≠ none ∧ hexStringToBytes oneName ≠ none ∧
    TextSearch.find oneName oneDirectory.path 0 = some 2 := by
  decide +kernel

theorem one_undoes : Undoes Sha256.sha256 unsealHost (str "abc") sealedBlock := by
  have hlen : sealedBlock.length = 560 + (str "abc").length := by
    rw [sealedBlock, List.length_append, List.length_replicate]
  refine ⟨⟨?_, ?_⟩, ⟨by decide, ?_⟩, one_runs.1.2⟩
  · exact congrArg some (List.drop_left' List.length_replicate)
  · exact (congrArg (· - 560) hlen).trans (Nat.add_sub_cancel_left _ _)
  · rw [hlen]
    decide

theorem one_load : JsonParse.load zeroMem oneBlock.text = .ok oneBlock.json :=
  SealedTree.load_text _ oneBlock_proper.loose one_runs.1.1 (by decide)

theorem one_walk : ∃ w,
    sealTree Sha256.sha256 zeroMem oneEnv.node oneDirectory.path [] ⟨[], 0, 0, []⟩
      (treeOf oneBlock.json) = some (.success, w, sealedName) := by
  obtain ⟨⟨status, w, root⟩, hwalk, hroot⟩ := Option.map_eq_some_iff.mp one_runs.2.1
  obtain ⟨hstatus, hname⟩ := Prod.ext_iff.mp hroot
  dsimp only at hstatus hname
  rw [hstatus, hname] at hwalk
  exact ⟨w, hwalk⟩

theorem one_entry : Entry Sha256.sha256 oneEnv.node unsealHost (leaves [] (treeOf oneBlock.json)) 0
    (str "abc") sealedBlock :=
  ⟨⟨([], oneInfo), rfl, oneInfo_hash, rfl, rfl⟩, one_undoes, by decide, by decide⟩

theorem one_sealable : Sealable Sha256.sha256 oneEnv.node unsealHost
    (leaves [] (treeOf oneBlock.json)) oneDirectory.files := by
  have hone : ∀ l ∈ leaves [] (treeOf oneBlock.json), l = ([], oneInfo) :=
    fun l hl => List.mem_singleton.mp hl
  refine ⟨fun l hl => ?_, fun name data => ?_, fun l hl => ?_, fun _ _ => rfl,
    fun l hl data out hread hseal => ?_, fun name data h => ?_⟩
  · rw [hone l hl]
    decide
  · unfold oneDirectory
    dsimp only
    constructor
    · intro h
      split_ifs at h with hname
      cases h
      exact ⟨0, ([], oneInfo), rfl, by rw [hname, oneInfo_hash], rfl⟩
    · rintro ⟨k, l, hl, rfl, hread⟩
      rw [one_leaves, List.getElem?_singleton] at hl
      split_ifs at hl with hk
      cases hl
      rw [hk, oneInfo_hash, if_pos rfl]
      exact (Prod.ext_iff.mp hread).2
  · rw [hone l hl]
    exact ⟨_, oneInfo_hash⟩
  · obtain rfl : str "abc" = data := Option.some.inj (Prod.ext_iff.mp hread).2
    obtain rfl : sealedBlock = out := Option.some.inj hseal
    exact one_undoes
  · unfold oneDirectory at h
    dsimp only at h
    split_ifs at h
    cases h
    exact one_entry.foreign

theorem one_seal : ∃ res, storageSealFile Sha256.sha256 zeroMem oneEnv () freshWorkload
    oneBlock.text oneDirectory.path = some res ∧ res.status = .success := by
  have hlimit : ¬ freshWorkload.checkedFiles.length + freshWorkload.newFiles.length ≥
      fileNumberUpperLimit := by decide
  have hsize : ¬ oneBlock.json.size = 0 := by decide
  have hvalid : validateMerkletree Sha256.sha256 zeroMem oneEnv.merkle [] (treeOf oneBlock.json) =
      .success := SealedTree.accepted_json _ _ (fun _ => rfl) oneBlock_proper one_runs.1.1 []
  obtain ⟨w, hwalk⟩ := one_walk
  rw [storageSealFile]
  dsimp only
  rw [if_neg hlimit, one_load]
  dsimp only
  rw [if_neg hsize, hvalid]
  dsimp only
  rw [hwalk]
  have hname : hexStringToBytes oneInfo.hash ≠ none := oneInfo_hash ▸ one_runs.2.2.2.1
  exact ⟨_, rfl, addSealed_success_iff.mpr
    ⟨one_runs.2.2.1, rfl, hname, rfl, rfl, rfl, rfl⟩⟩

def sealedOne : Directory :=
  directoryAfter Sha256.sha256 zeroMem oneEnv freshWorkload oneBlock.json none oneDirectory

def oneUnsealEnv : UnsealEnv where
  persistGet := fun key =>
    if key = sealedName ++ str "_meta" then (.success, some ((metaJson oneInfo).dump fun _ _ => []))
    else (persistGetFailed, none)
  file := fun _ => ⟨(.success, some sealedBlock), true, true, .success, true⟩
  renameDir := .success

theorem sealedOne_files (name : Bytes) :
    sealedOne.files name = if name = blockName 0 sealedName then some sealedBlock else none := by
  obtain ⟨res, hseal, hs⟩ := one_seal
  obtain ⟨w, newRoot, hwalk, -, hafter⟩ := directoryAfter_sealed none one_load hseal hs
  obtain ⟨bs, hfiled, hblocks, -⟩ := sealTree_filed _ one_sealable.handled hwalk
  rw [List.nil_append] at hblocks
  have hms := sealed_of_filed one_sealable List.drop_zero hfiled
  rw [sealedOne, hafter, replaceAll_eq, hblocks]
  dsimp only
  split_ifs with hname
  · exact (one_sealable.sealed_iff hms name _).mpr ⟨0, _, one_entry, hname⟩
  · by_contra hne
    obtain ⟨out, hout⟩ := Option.ne_none_iff_exists'.mp hne
    obtain ⟨k, data, hentry, rfl⟩ := (one_sealable.sealed_iff hms name _).mp hout
    obtain ⟨l, hl, -⟩ := hentry.leaf
    rw [one_leaves, List.getElem?_singleton] at hl
    split_ifs at hl with hk
    subst hk
    obtain ⟨rfl, rfl⟩ := hentry.unique one_entry
    exact hname rfl

theorem unseal_undoes_seal_one :
    ∃ r, storageUnsealFile Sha256.sha256 zeroMem unsealHost oneUnsealEnv [blockName 0 sealedName]
        sealedOne.path = some r ∧ r.status = .success ∧ unsealedAfter sealedOne r = oneDirectory := by
  obtain ⟨res, hseal, hs⟩ := one_seal
  have hroot : (treeOf oneBlock.json).info.hash = oneName := oneInfo_hash
  refine @unseal_undoes_seal _ _ _ _ _ _ _ _ _ _ (str "d") _ _ _ none sealedOne (fun _ _ => [])
    one_load hseal hs one_sealable ⟨_, hroot⟩ ⟨?_, ?_⟩ rfl (List.nodup_singleton _) (fun name => ?_)
    ⟨?_, rfl, rfl, rfl, rfl, ?_⟩ (fun key text hrecord => ?_) rfl
  · rw [hroot]
    rfl
  · rw [hroot]
    exact one_runs.2.2.2.2
  · rw [List.mem_singleton, sealedOne_files]
    split_ifs with hname
    · exact iff_of_true hname nofun
    · exact iff_of_false hname (not_not.mpr rfl)
  · rw [sealedOne_files, if_pos rfl]
    rfl
  · exact fun _ _ _ _ => trivial
  · obtain ⟨w, hwalk⟩ := one_walk
    rw [metaRecord, hwalk, MerkleExact.info_treeOf] at hrecord
    dsimp only at hrecord
    obtain ⟨rfl, rfl⟩ := Prod.mk.inj (Option.some.inj hrecord)
    rw [oneUnsealEnv]
    dsimp only
    rw [if_pos rfl, oneInfo]

end CrustSworker.UnsealRound
