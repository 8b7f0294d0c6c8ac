import CrustSworker.MetadataRoundTrip
import CrustSworker.ValidatePass

/-!
# Restarting

The main loop validates the files and then stores the metadata, while files are sealed,
confirmed and deleted beside it. A node that dies after the store starts again from what was
stored: the entries of `checked_files`, and the statistics as a record of their own. A run here
is a run of the file operations in which such restarts may happen. Next to the workload a state
has the hashes of the files that were sealed and not deleted since, and the tag of the next
entry, so that entries can be told apart.
-/

namespace CrustSworker.Restart

open FileStats JsonParse Metadata OrderedMap Report ValidatePass

structure State where
  pass : ValidatePass.State Nat
  live : List Bytes
  next : Nat

def State.wl (s : State) : Workload Nat := s.pass.pass.wl

def idle (wl : Workload Nat) : ValidatePass.State Nat := ⟨⟨wl, [], false⟩, []⟩

inductive Act where
  | sealFile (env : Seal.SealEnv) (treeText path : Bytes)
  /-- `validate_meaningful_file` begins and takes the new files over. -/
  | begin
  /-- A file is checked by the pass, or something else happens to the files. -/
  | inPass (a : ValidatePass.Act)
  | finish
  /-- Everything but the files and the statistics may change. -/
  | rest (change : Workload Nat → Workload Nat)
  | restart (senv : StoreEnv) (renv : RestoreEnv) (db : Option Bytes) (keys : KeyPair) (pre : PubKey)

def forget (a : ValidatePass.Act) (live : List Bytes) : List Bytes :=
  match a with
  | .delete hash => live.filter fun h => decide (h ≠ hash)
  | _ => live

def keepFiles (change : Workload Nat → Workload Nat) (wl : Workload Nat) : Workload Nat :=
  { change wl with
    checkedFiles := wl.checkedFiles
    newFiles := wl.newFiles
    wlSpecInfo := wl.wlSpecInfo }

def addedHashs (wl wl' : Workload Nat) : List Bytes :=
  (wl'.newFiles.drop wl.newFiles.length).map FileItem.hashText

section
variable (sha256 : Bytes → Hash) (mem : Mem) (floatText : Bytes → Bytes → Bytes)

def stores (senv : StoreEnv) (wl : Workload Nat) : Prop :=
  (storeMetadata mem floatText senv wl).map Prod.fst = some .success

instance (senv : StoreEnv) (wl : Workload Nat) : Decidable (stores mem floatText senv wl) :=
  inferInstanceAs (Decidable (_ = _))

def restored (s : State) (senv : StoreEnv) (renv : RestoreEnv) (db : Option Bytes) (keys : KeyPair)
    (pre : PubKey) : Option (CrustStatus × Workload Nat) :=
  storeThenRestore mem floatText (fun i => s.next + i) senv renv db s.wl (Workload.init keys pre)

def step (s : State) : Act → Option State
  | .sealFile env treeText path =>
    (Seal.storageSealFile sha256 mem env s.next s.wl treeText path).map fun res =>
      ⟨onWl s.pass res.wl,
        if res.status = .success then s.live ++ addedHashs s.wl res.wl else s.live, s.next + 1⟩
  | .begin =>
    if s.pass.pass.changed.length = 0 then some { s with pass := ValidatePass.start s.wl } else none
  | .inPass a =>
    (ValidatePass.step sha256 mem s.pass a).map fun pass =>
      -- An offline host ends the pass.
      { s with
        pass := if pass.pass.stopped then idle pass.pass.wl else pass
        live := forget a s.live }
  | .finish => some { s with pass := idle (exitWl s.pass) }
  | .rest change => some { s with pass := onWl s.pass (keepFiles change s.wl) }
  | .restart senv renv db keys pre =>
    -- The loop stores after `validate_meaningful_file` has returned.
    if s.pass.pass.changed.length = 0 ∧ stores mem floatText senv s.wl then
      (restored mem floatText s senv renv db keys pre).map fun res =>
        ⟨idle res.2, s.live, s.next + s.wl.checkedFiles.length⟩
    else none

end

def start (keys : KeyPair) (pre : PubKey) : State := ⟨idle (Workload.init keys pre), [], 0⟩

structure Kept (live : List Bytes) (wl : Workload Nat) : Prop where
  files : ∀ h ∈ live, ∃ f ∈ entries wl, f.hashText = h ∧ f.current ≠ statusDeleted
  stats : StatsMatch wl

section
variable (mem : Mem) (floatText : Bytes → Bytes → Bytes)

end

/-! ### When it does -/

def longCounters : JSON → Bool
  | .object fields => fields.all fun p =>
    match p.2 with
    | .object sub => sub.all fun q => decide (IsLong q.2.toInt)
    | _ => true
  | _ => true

structure Restorable (floatText : Bytes → Bytes → Bytes) (wl : Workload Nat) (renv : RestoreEnv) :
    Prop where
  noEscapes : (∀ p ∈ wl.srdPath2hashs, NoEscape p.1) ∧ NoEscape wl.accountId
  noTags : (∀ p ∈ wl.srdPath2hashs, Untagged p.1) ∧ Untagged wl.accountId
  paths : Sorted ltBytes wl.srdPath2hashs
  counters : longCounters wl.wlSpecInfo = true
  notHandedOver : wl.upgradeStatus ≠ .success
  height : wl.reportHeight.toNat < 2 ^ 63
  malloc : renv.mallocKey = true ∧ renv.mallocPreKey = true
  buffers : Workload.HashBuffers renv.mallocHash wl.srdPath2hashs
  spec : renv.wlSpecInfo = (.success, some (strip (wl.wlSpecInfo.dump floatText)))

instance (m : List (Bytes × List Bytes)) : Decidable (Sorted ltBytes m) :=
  inferInstanceAs (Decidable (List.Pairwise _ m))

instance (floatText : Bytes → Bytes → Bytes) (wl : Workload Nat) (renv : RestoreEnv) :
    Decidable (Restorable floatText wl renv) :=
  decidable_of_iff
    (((∀ p ∈ wl.srdPath2hashs, NoEscape p.1) ∧ NoEscape wl.accountId) ∧
      ((∀ p ∈ wl.srdPath2hashs, Untagged p.1) ∧ Untagged wl.accountId) ∧
      Sorted ltBytes wl.srdPath2hashs ∧ longCounters wl.wlSpecInfo = true ∧
      wl.upgradeStatus ≠ .success ∧ wl.reportHeight.toNat < 2 ^ 63 ∧
      (renv.mallocKey = true ∧ renv.mallocPreKey = true) ∧
      Workload.HashBuffers renv.mallocHash wl.srdPath2hashs ∧
      renv.wlSpecInfo = (.success, some (strip (wl.wlSpecInfo.dump floatText))))
    ⟨fun ⟨h₁, h₂, h₃, h₄, h₅, h₆, h₇, h₈, h₉⟩ => ⟨h₁, h₂, h₃, h₄, h₅, h₆, h₇, h₈, h₉⟩,
      fun h => ⟨h.noEscapes, h.noTags, h.paths, h.counters, h.notHandedOver, h.height, h.malloc,
        h.buffers, h.spec⟩⟩

def numbersFit (f : FileItem Nat) : Bool :=
  decide (InRange f.oldSize) && decide (IsLong (f.json.get fileSize).toInt) &&
    decide (IsLong (f.json.get fileBlockNum).toInt)

section
variable (sha256 : Bytes → Hash) (mem : Mem) (floatText : Bytes → Bytes → Bytes)

/-- What is stored is all there is: no file waits in `new_files` when the metadata is stored. For
the statistics, the pass keeps track of what it changes. -/
def Complete (s : State) : Act → Prop
  | .sealFile env treeText path =>
    ((Seal.storageSealFile sha256 mem env s.next s.wl treeText path).all fun res =>
      res.wl.newFiles.all numbersFit) = true
  | .inPass a => keepsTrack sha256 mem s.pass a = true
  | .restart _ renv _ _ _ => s.wl.newFiles.length = 0 ∧ Restorable floatText s.wl renv
  | _ => True

instance (s : State) (a : Act) : Decidable (Complete sha256 mem floatText s a) :=
  match a with
  | .sealFile .. => inferInstanceAs (Decidable (_ = true))
  | .inPass _ => inferInstanceAs (Decidable (_ = true))
  | .restart .. => inferInstanceAs (Decidable (_ ∧ _))
  | .begin => .isTrue trivial
  | .finish => .isTrue trivial
  | .rest _ => .isTrue trivial

end

/-! ### The shape of the statistics -/

/-- For every status an object of numbers, of any size. -/
structure IsCounters (spec : JSON) : Prop where
  fields : ∃ fields, spec = .object fields ∧ Sorted ltBytes fields ∧
    ∀ p ∈ fields, PlainKey p.1 ∧ ∃ sub, p.2 = .object sub ∧ Sorted ltBytes sub ∧
      ∀ q ∈ sub, PlainKey q.1 ∧ ∃ n, q.2 = .integral n

theorem IsCounters.isSpec {spec : JSON} (h : IsCounters spec) (hlong : longCounters spec = true) :
    IsSpec spec := by
  obtain ⟨fields, rfl, hs, hf⟩ := h.fields
  refine ⟨fields, rfl, hs, fun p hp => ?_⟩
  obtain ⟨hkey, sub, hsub, hss, hq⟩ := hf p hp
  refine ⟨hkey, sub, hsub, hss, fun q hqm => ?_⟩
  obtain ⟨hqk, n, hn⟩ := hq q hqm
  have hrow := List.all_eq_true.mp hlong p hp
  simp only [hsub] at hrow
  have hnum := of_decide_eq_true (List.all_eq_true.mp hrow q hqm)
  rw [hn] at hnum
  exact ⟨hqk, n, hn, hnum⟩

theorem IsCounters.putNumber {spec : JSON} (h : IsCounters spec) {name k : Bytes}
    (hname : PlainKey name) (hk : PlainKey k) (n : Int) :
    IsCounters (spec.put name ((spec.get name).put k (.integral n))) := by
  obtain ⟨fields, rfl, hs, hf⟩ := h.fields
  have hrow : ∃ sub, ((JSON.object fields).get name).put k (.integral n) = .object sub ∧
      Sorted ltBytes sub ∧ ∀ q ∈ sub, PlainKey q.1 ∧ ∃ n, q.2 = .integral n := by
    have hone : Sorted ltBytes [(k, JSON.integral n)] ∧
        ∀ q ∈ [(k, JSON.integral n)], PlainKey q.1 ∧ ∃ n, q.2 = .integral n := by
      refine ⟨List.pairwise_singleton _ _, fun q hq => ?_⟩
      rw [List.mem_singleton.mp hq]
      exact ⟨hk, n, rfl⟩
    rw [JSON.get]
    cases hfind : findKey name fields with
    | none => exact ⟨_, rfl, hone⟩
    | some row =>
      obtain ⟨-, sub, hsub, hss, hq⟩ := hf (name, row) (mem_of_findKey hfind)
      have hrow : row = .object sub := hsub
      rw [Option.getD_some, hrow]
      refine ⟨_, rfl, hss.insertKey isOrder_ltBytes k (.integral n), fun q hqm => ?_⟩
      rcases mem_insertKey hqm with rfl | hqm
      · exact ⟨hk, n, rfl⟩
      · exact hq q hqm
  obtain ⟨sub, hsub, hss, hq⟩ := hrow
  refine ⟨_, rfl, hs.insertKey isOrder_ltBytes name _, fun p hp => ?_⟩
  rcases mem_insertKey hp with rfl | hp
  · exact ⟨hname, sub, hsub, hss, hq⟩
  · exact hf p hp

theorem plainKey_statusName (c : UInt8) : PlainKey (fileStatusName c) := by
  unfold fileStatusName
  split_ifs
  all_goals decide

theorem IsCounters.bump {spec : JSON} (h : IsCounters spec) (c : UInt8) (dn ds : Int) :
    IsCounters (bumpSpec spec (fileStatusName c) dn ds) :=
  (h.putNumber (plainKey_statusName c) (by decide) _).putNumber (plainKey_statusName c) (by decide) _

section
variable {wl : Workload Nat}

theorem IsCounters.set (h : IsCounters wl.wlSpecInfo) (c : UInt8) (n : Int) :
    IsCounters (wl.setWlSpec c n).wlSpecInfo := h.bump c _ _

theorem IsCounters.move (h : IsCounters wl.wlSpecInfo) (c d : UInt8) (n : Int) :
    IsCounters (wl.moveWlSpec c d n).wlSpecInfo := by
  unfold Workload.moveWlSpec
  split_ifs
  · exact h
  · exact (h.bump c _ _).bump d _ _

theorem IsCounters.drop (h : IsCounters wl.wlSpecInfo) (files : List (FileItem Nat)) (i : Nat) :
    IsCounters (Storage.dropSpec wl files i).wlSpecInfo := by
  unfold Storage.dropSpec
  split
  · exact h.set _ _
  · exact h

theorem IsCounters.confirm (h : IsCounters wl.wlSpecInfo) (hash : Bytes) :
    IsCounters (Storage.storageConfirmFile wl hash).wlSpecInfo := by
  unfold Storage.storageConfirmFile
  split
  · apply IsCounters.move
    exact h
  · split
    · apply IsCounters.move
      exact h
    · exact h

theorem IsCounters.delete (h : IsCounters wl.wlSpecInfo) (hash : Bytes) :
    IsCounters (Storage.storageDeleteFile wl hash).wlSpecInfo := by
  unfold Storage.storageDeleteFile
  split
  · apply IsCounters.drop
    exact h
  · split
    · apply IsCounters.drop
      exact h
    · exact h

theorem IsCounters.settle (h : IsCounters wl.wlSpecInfo) (changed : List (Nat × Bool)) :
    IsCounters (Validator.settleChanged wl changed).wlSpecInfo := by
  unfold Validator.settleChanged
  induction changed generalizing wl with
  | nil => exact h
  | cons p changed ih =>
    rw [List.foldl_cons]
    apply ih
    split
    · exact h.move _ _ _
    · exact h

end

/-! ### What becomes of the entries -/

/-- An entry after an edit. Only one whose hash is in `gone` may have been marked deleted. -/
structure Edit (gone : Bytes → Prop) (f f' : FileItem Nat) : Prop where
  tag : f'.tag = f.tag
  hash : f'.hashText = f.hashText
  entry : IsEntry f'.json
  alive : f.current ≠ statusDeleted → ¬ gone f.hashText → f'.current ≠ statusDeleted

section
variable {gone : Bytes → Prop} {f : FileItem Nat}

theorem hashText_set (f : FileItem Nat) (i : Nat) (c : UInt8) :
    (f.setStatusChar i c).hashText = f.hashText := by
  rw [FileItem.hashText, FileItem.setStatusChar_hash, FileItem.hashText]

theorem Edit.refl (h : IsEntry f.json) : Edit gone f f := ⟨rfl, rfl, h, fun hc _ => hc⟩

theorem Edit.older (h : IsEntry f.json) {i j : Nat} (hi : i < 3) (hne : currentStatus ≠ i)
    (hj : j < 3) : Edit gone f (f.setStatusChar i (f.statusChar j)) where
  tag := rfl
  hash := hashText_set f i _
  entry := h.setStatusChar hi (h.statusChar hj)
  alive hc _ := by
    have hcur : (f.setStatusChar i (f.statusChar j)).current = f.current :=
      h.hasStatus.char_ne hi hne _
    rw [hcur]
    exact hc

theorem Edit.current (h : IsEntry f.json) {c : UInt8}
    (hc : statusUnconfirmed ≤ c ∧ c ≤ statusDeleted) (hgone : c = statusDeleted → gone f.hashText) :
    Edit gone f (f.setStatusChar currentStatus c) where
  tag := rfl
  hash := hashText_set f currentStatus c
  entry := h.setStatusChar (by decide) hc
  alive _ hkept := by
    have hcur : (f.setStatusChar currentStatus c).current = c :=
      h.hasStatus.char_self (by decide) c
    rw [hcur]
    exact fun hd => hkept (hgone hd)

theorem Edit.confirm (h : IsEntry f.json) : Edit gone f (Storage.confirmItem f) := by
  unfold Storage.confirmItem
  split_ifs
  · exact .current h (by decide) fun hd => absurd hd (by decide)
  · exact .refl h

theorem Edit.verdict (h : IsEntry f.json) (v : Validator.Verdict) :
    Edit gone f (Validator.applyVerdict v f) := by
  unfold Validator.applyVerdict
  split
  · split_ifs
    · exact .current h (by decide) fun hd => absurd hd (by decide)
    · exact .refl h
  · split_ifs
    · exact .current h (by decide) fun hd => absurd hd (by decide)
    · exact .refl h
  · exact .refl h

theorem Edit.mark (h : IsEntry f.json) (isUpgrading : Bool) :
    Edit gone f (ValidatePass.mark isUpgrading f) := by
  unfold ValidatePass.mark
  split_ifs
  · exact .refl h
  · exact .older h (by decide) (by decide) (by decide)

end

structure Edited (gone : Bytes → Prop) (l l' : List (FileItem Nat)) : Prop where
  tags : (l'.map FileItem.tag).Sublist (l.map FileItem.tag)
  entry : ∀ f ∈ l', IsEntry f.json
  alive : ∀ f ∈ l, f.current ≠ statusDeleted → ¬ gone f.hashText →
    ∃ f' ∈ l', f'.hashText = f.hashText ∧ f'.current ≠ statusDeleted

namespace Edited

variable {gone : Bytes → Prop} {l l' m m' : List (FileItem Nat)}

theorem refl (h : ∀ f ∈ l, IsEntry f.json) : Edited gone l l :=
  ⟨List.Sublist.refl _, h, fun f hf hc _ => ⟨f, hf, rfl, hc⟩⟩

theorem trans (h₁ : Edited gone l l') (h₂ : Edited gone l' m) : Edited gone l m where
  tags := h₂.tags.trans h₁.tags
  entry := h₂.entry
  alive := by
    intro f hf hc hg
    obtain ⟨e, he, hhash, hcur⟩ := h₁.alive f hf hc hg
    obtain ⟨e', he', hhash', hcur'⟩ := h₂.alive e he hcur (hhash ▸ hg)
    exact ⟨e', he', hhash'.trans hhash, hcur'⟩

theorem append (h₁ : Edited gone l l') (h₂ : Edited gone m m') : Edited gone (l ++ m) (l' ++ m') where
  tags := by
    rw [List.map_append, List.map_append]
    exact h₁.tags.append h₂.tags
  entry := by
    intro f hf
    rcases List.mem_append.mp hf with hf | hf
    · exact h₁.entry f hf
    · exact h₂.entry f hf
  alive := by
    intro f hf hc hg
    rcases List.mem_append.mp hf with hf | hf
    · obtain ⟨e, he, hrest⟩ := h₁.alive f hf hc hg
      exact ⟨e, List.mem_append_left _ he, hrest⟩
    · obtain ⟨e, he, hrest⟩ := h₂.alive f hf hc hg
      exact ⟨e, List.mem_append_right _ he, hrest⟩

theorem map {g : FileItem Nat → FileItem Nat} (hg : ∀ f ∈ l, Edit gone f (g f)) :
    Edited gone l (l.map g) where
  tags := by
    have htags : (l.map g).map FileItem.tag = l.map FileItem.tag := by
      rw [List.map_map]
      exact List.map_congr_left fun f hf => (hg f hf).tag
    rw [htags]
  entry := by
    intro f hf
    obtain ⟨e, he, rfl⟩ := List.mem_map.mp hf
    exact (hg e he).entry
  alive f hf hc hk := ⟨g f, List.mem_map_of_mem hf, (hg f hf).hash, (hg f hf).alive hc hk⟩

theorem modify (h : ∀ f ∈ l, IsEntry f.json) {g : FileItem Nat → FileItem Nat}
    (htag : ∀ f, (g f).tag = f.tag) {i : Nat} (hg : ∀ f, l[i]? = some f → Edit gone f (g f)) :
    Edited gone l (l.modify i g) where
  tags := by rw [map_tag_modify l htag]
  entry := by
    intro e he
    obtain ⟨j, hj⟩ := List.mem_iff_getElem?.mp he
    rw [List.getElem?_modify] at hj
    obtain ⟨f, hf, rfl⟩ := Option.map_eq_some_iff.mp hj
    split_ifs with hij
    · exact (hg f (hij ▸ hf)).entry
    · exact h f (List.mem_of_getElem? hf)
  alive := by
    intro f hf hc hk
    obtain ⟨j, hj⟩ := List.mem_iff_getElem?.mp hf
    have hget := List.getElem?_modify g i l j
    rw [hj, Option.map_eq_map, Option.map_some] at hget
    refine ⟨_, List.mem_of_getElem? hget, ?_⟩
    split_ifs with hij
    · exact ⟨(hg f (hij ▸ hj)).hash, (hg f (hij ▸ hj)).alive hc hk⟩
    · exact ⟨rfl, hc⟩

theorem filter (h : ∀ f ∈ l, IsEntry f.json) {p : FileItem Nat → Bool}
    (hp : ∀ f ∈ l, p f = false → f.current = statusDeleted) : Edited gone l (l.filter p) where
  tags := List.filter_sublist.map _
  entry f hf := h f (List.mem_of_mem_filter hf)
  alive := by
    intro f hf hc _
    refine ⟨f, List.mem_filter.mpr ⟨hf, ?_⟩, rfl, hc⟩
    by_contra hno
    exact hc (hp f hf (by simpa using hno))

theorem eraseIdx (h : ∀ f ∈ l, IsEntry f.json) {i : Nat}
    (hi : ∀ f, l[i]? = some f → gone f.hashText) : Edited gone l (l.eraseIdx i) where
  tags := (List.eraseIdx_sublist l i).map _
  entry f hf := h f (List.mem_of_mem_eraseIdx hf)
  alive := by
    intro f hf hc hk
    obtain ⟨j, hj⟩ := List.mem_iff_getElem?.mp hf
    refine ⟨f, List.mem_eraseIdx_iff_getElem?.mpr ⟨j, ?_, hj⟩, rfl, hc⟩
    rintro rfl
    exact hk (hi f hj)

end Edited

/-! ### The operations -/

structure Shape (wl : Workload Nat) : Prop where
  entry : ∀ f ∈ entries wl, IsEntry f.json
  counters : IsCounters wl.wlSpecInfo

structure Follows (gone : Bytes → Prop) (wl wl' : Workload Nat) : Prop where
  files : Edited gone (entries wl) (entries wl')
  counters : IsCounters wl'.wlSpecInfo

section
variable {gone : Bytes → Prop} {wl wl' : Workload Nat}

theorem Shape.checked (h : Shape wl) : ∀ f ∈ wl.checkedFiles, IsEntry f.json :=
  fun f hf => h.entry f (List.mem_append_left _ hf)

theorem Shape.new (h : Shape wl) : ∀ f ∈ wl.newFiles, IsEntry f.json :=
  fun f hf => h.entry f (List.mem_append_right _ hf)

theorem Follows.of_lists (hc : Edited gone wl.checkedFiles wl'.checkedFiles)
    (hn : Edited gone wl.newFiles wl'.newFiles) (hs : IsCounters wl'.wlSpecInfo) :
    Follows gone wl wl' := ⟨hc.append hn, hs⟩

theorem Follows.same (h : Shape wl) (hfiles : entries wl' = entries wl)
    (hs : IsCounters wl'.wlSpecInfo) : Follows gone wl wl' := by
  refine ⟨?_, hs⟩
  rw [hfiles]
  exact .refl h.entry

theorem follows_confirm (h : Shape wl) (hash : Bytes) :
    Follows gone wl (Storage.storageConfirmFile wl hash) := by
  have hcounters := h.counters.confirm hash
  revert hcounters
  unfold Storage.storageConfirmFile
  split
  · rename_i i _
    intro hcounters
    obtain ⟨hc, hn⟩ := entries_move { wl with
      checkedFiles := wl.checkedFiles.modify i Storage.confirmItem } statusValid statusUnconfirmed
      (Storage.oldSizeAt wl.checkedFiles i)
    refine .of_lists ?_ ?_ hcounters
    · rw [hc]
      exact .modify h.checked confirmItem_tag fun f hf => .confirm (h.checked f (List.mem_of_getElem? hf))
    · rw [hn]
      exact .refl h.new
  · split
    · rename_i i _
      intro hcounters
      obtain ⟨hc, hn⟩ := entries_move { wl with
        newFiles := wl.newFiles.modify i Storage.confirmItem } statusValid statusUnconfirmed
        (Storage.oldSizeAt wl.newFiles i)
      refine .of_lists ?_ ?_ hcounters
      · rw [hc]
        exact .refl h.checked
      · rw [hn]
        exact .modify h.new confirmItem_tag fun f hf => .confirm (h.new f (List.mem_of_getElem? hf))
    · intro hcounters
      exact .same h rfl hcounters

theorem follows_delete (h : Shape wl) {hash : Bytes} (hgone : gone hash) :
    Follows gone wl (Storage.storageDeleteFile wl hash) := by
  have hcounters := h.counters.delete hash
  revert hcounters
  unfold Storage.storageDeleteFile
  split
  · rename_i i hi
    intro hcounters
    obtain ⟨info, hdrop⟩ := Storage.dropSpec_eq { wl with
      checkedFiles := Workload.setStatusAt wl.checkedFiles i currentStatus statusDeleted }
      wl.checkedFiles i
    refine .of_lists ?_ ?_ hcounters
    · rw [hdrop]
      refine .modify h.checked (fun f => f.setStatusChar_tag _ _) fun f hf => ?_
      refine .current (h.checked f (List.mem_of_getElem? hf)) (by decide) fun _ => ?_
      obtain ⟨hlt, hp, -⟩ := List.findIdx?_eq_some_iff_getElem.mp hi
      rw [List.getElem?_eq_getElem hlt] at hf
      cases hf
      rw [of_decide_eq_true hp]
      exact hgone
    · rw [hdrop]
      exact .refl h.new
  · split
    · rename_i i hi
      intro hcounters
      obtain ⟨info, hdrop⟩ := Storage.dropSpec_eq { wl with newFiles := wl.newFiles.eraseIdx i }
        wl.newFiles i
      refine .of_lists ?_ ?_ hcounters
      · rw [hdrop]
        exact .refl h.checked
      · rw [hdrop]
        refine .eraseIdx h.new fun f hf => ?_
        obtain ⟨e, he, hp⟩ := findLast_spec hi
        rw [he] at hf
        cases hf
        rw [of_decide_eq_true hp]
        exact hgone
    · intro hcounters
      exact .same h rfl hcounters

theorem gen_spec {sha256 : Bytes → Hash} {mem : Mem} {env : ReportEnv} {blockHash : Bytes}
    {blockHeight : UInt64} {isUpgrading : Bool} {res : GenResult Nat}
    (hg : genWorkReport sha256 mem env wl blockHash blockHeight isUpgrading = some res) :
    res.2.1.wlSpecInfo = wl.wlSpecInfo := by
  cases hp : heightExpired wl.reportHeight blockHeight with
  | true =>
    unfold genWorkReport at hg
    rw [if_pos hp] at hg
    cases hg
    rfl
  | false =>
    rcases (genWorkReport_outcome hp hg).settled with hs | hs
    · rw [hs]
      rfl
    · rw [hs]
      rfl

theorem follows_gen {sha256 : Bytes → Hash} {mem : Mem} {env : ReportEnv} {blockHash : Bytes}
    {blockHeight : UInt64} {isUpgrading : Bool} {res : GenResult Nat} (h : Shape wl)
    (hg : genWorkReport sha256 mem env wl blockHash blockHeight isUpgrading = some res) :
    Follows gone wl res.2.1 := by
  refine .of_lists ?_ ?_ (gen_spec hg ▸ h.counters)
  · rw [gen_checked hg]
    split_ifs
    · have hkept : Edited gone wl.checkedFiles (eraseGone wl.checkedFiles) :=
        .filter h.checked fun f hmem hf =>
          isGone_deleted (h.checked f hmem).hasStatus (by simpa using hf)
      exact hkept.trans (.map fun f hf => .mark (hkept.entry f hf) isUpgrading)
    · exact .refl h.checked
  · rw [gen_new hg]
    exact .refl h.new

theorem edited_ackFiles (idxs : List Nat) {files : List (FileItem Nat)}
    (h : ∀ f ∈ files, IsEntry f.json) : Edited gone files (idxs.foldl Workload.ackFile files) := by
  induction idxs generalizing files with
  | nil => exact .refl h
  | cons i idxs ih =>
    have hone : Edited gone files (Workload.ackFile files i) :=
      .modify h (fun f => f.setStatusChar_tag _ _) fun f hf =>
        .older (h f (List.mem_of_getElem? hf)) (by decide) (by decide) (by decide)
    exact hone.trans (ih hone.entry)

theorem follows_ack (h : Shape wl) : Follows gone wl wl.handleReportResult :=
  .of_lists (edited_ackFiles wl.reportedFilesIdx h.checked) (.refl h.new) h.counters

theorem follows_check {sha256 : Bytes → Hash} {mem : Mem} {env : Validator.CheckEnv} {i : Nat}
    {p p' : Validator.Pass Nat} (h : Shape p.wl)
    (hp : Validator.checkFile sha256 mem env p i = some p') : Follows gone p.wl p'.wl := by
  unfold Validator.checkFile at hp
  cases hf : p.wl.checkedFiles[i]? with
  | none =>
    simp only [hf] at hp
    cases hp
    exact .same h rfl h.counters
  | some f =>
    cases hv : Validator.judgeFile sha256 mem env f with
    | none =>
      simp only [hf, hv] at hp
      cases hp
    | some v =>
      cases v with
      | offline =>
        simp only [hf, hv] at hp
        cases hp
        exact .same h rfl h.counters
      | _ =>
        simp only [hf, hv] at hp
        cases hp
        refine .of_lists ?_ (.refl h.new) h.counters
        exact .modify h.checked (applyVerdict_tag _) fun f hf =>
          .verdict (h.checked f (List.mem_of_getElem? hf)) _

end

theorem follows_step {sha256 : Bytes → Hash} {mem : Mem} {p p' : ValidatePass.State Nat}
    {a : ValidatePass.Act} (h : Shape p.pass.wl) (hstep : ValidatePass.step sha256 mem p a = some p') :
    Follows (fun g => a = .delete g) p.pass.wl p'.pass.wl := by
  unfold ValidatePass.step at hstep
  split_ifs at hstep
  cases a with
  | check env i =>
    obtain ⟨pass, hp, rfl⟩ := Option.map_eq_some_iff.mp hstep
    exact follows_check h hp
  | confirm hash =>
    cases hstep
    exact follows_confirm h hash
  | delete hash =>
    cases hstep
    exact follows_delete h rfl
  | gen env blockHash blockHeight isUpgrading =>
    obtain ⟨wl, hwl, rfl⟩ := Option.map_eq_some_iff.mp hstep
    obtain ⟨res, hres, rfl⟩ := Option.map_eq_some_iff.mp hwl
    exact follows_gen h hres
  | ack =>
    cases hstep
    exact follows_ack h

theorem stopped_unchanged {sha256 : Bytes → Hash} {mem : Mem} {p p' : ValidatePass.State Nat}
    {a : ValidatePass.Act} (hstep : ValidatePass.step sha256 mem p a = some p')
    (hrun : p.pass.stopped = false) (hstop : p'.pass.stopped = true) :
    p'.pass.wl.checkedFiles = p.pass.wl.checkedFiles ∧ p'.pass.wl.newFiles = p.pass.wl.newFiles := by
  have hfiles : ∀ b, onFiles sha256 mem p b = some p' → p'.pass.stopped = false := by
    intro b hb
    obtain ⟨wl, -, rfl⟩ := Option.map_eq_some_iff.mp hb
    exact hrun
  unfold ValidatePass.step at hstep
  rw [hrun, if_neg Bool.false_ne_true] at hstep
  cases a with
  | check env i =>
    obtain ⟨pass, hp, rfl⟩ := Option.map_eq_some_iff.mp hstep
    unfold Validator.checkFile at hp
    cases hf : p.pass.wl.checkedFiles[i]? with
    | none =>
      simp only [hf] at hp
      cases hp
      exact ⟨rfl, rfl⟩
    | some f =>
      cases hv : Validator.judgeFile sha256 mem env f with
      | none =>
        simp only [hf, hv] at hp
        cases hp
      | some v =>
        cases v with
        | offline =>
          simp only [hf, hv] at hp
          cases hp
          exact ⟨rfl, rfl⟩
        | _ =>
          simp only [hf, hv] at hp
          cases hp
          rw [hrun] at hstop
          cases hstop
  | _ =>
    rw [hfiles _ hstep] at hstop
    cases hstop

/-! ### One step -/

structure Inv (s : State) : Prop where
  running : s.pass.pass.stopped = false
  good : Good s.pass
  shape : Shape s.wl
  live : ∀ h ∈ s.live, ∃ f ∈ entries s.wl, f.hashText = h ∧ f.current ≠ statusDeleted
  tags : ((entries s.wl).map FileItem.tag).Nodup
  below : ∀ f ∈ entries s.wl, f.tag < s.next

section
variable {s : State}

theorem Inv.follow (h : Inv s) (gone : Bytes → Prop) {pass : ValidatePass.State Nat}
    {live : List Bytes} (hrun : pass.pass.stopped = false) (hgood : Good pass)
    (hf : Follows gone s.wl pass.pass.wl) (hlive : ∀ h ∈ live, h ∈ s.live ∧ ¬ gone h) :
    Inv ⟨pass, live, s.next⟩ where
  running := hrun
  good := hgood
  shape := ⟨hf.files.entry, hf.counters⟩
  live := by
    intro g hg
    obtain ⟨hmem, hkept⟩ := hlive g hg
    obtain ⟨f, hfm, rfl, hcur⟩ := h.live g hmem
    exact hf.files.alive f hfm hcur hkept
  tags := h.tags.sublist hf.files.tags
  below := by
    intro f hfm
    have hmem : f.tag ∈ (entries s.wl).map FileItem.tag :=
      hf.files.tags.subset (List.mem_map_of_mem hfm)
    obtain ⟨e, he, htag⟩ := List.mem_map.mp hmem
    rw [← htag]
    exact h.below e he

theorem good_idle {wl : Workload Nat} (hok : EntriesOk wl) (hstats : StatsMatch wl)
    (htags : (wl.checkedFiles.map FileItem.tag).Nodup) : Good (idle wl) where
  ok := hok
  tags := htags
  sorted := sorted_nil _
  noted := by
    intro p hp
    cases hp
  stats := by
    intro m c hc
    have hnone : pend m c (idle wl).pass.wl.checkedFiles (idle wl).pass.changed = 0 := rfl
    rw [hnone, add_zero]
    exact statsMatch_columns.mp hstats m c hc

theorem Inv.stats (h : Inv s) (hidle : s.pass.pass.changed.length = 0) : StatsMatch s.wl := by
  refine statsMatch_columns.mpr fun m c hc => ?_
  have hcol := h.good.stats m c hc
  rw [List.length_eq_zero_iff.mp hidle] at hcol
  have hnone : pend m c s.pass.pass.wl.checkedFiles [] = 0 := rfl
  rw [hnone, add_zero] at hcol
  exact hcol

theorem Inv.finish (h : Inv s) : Inv { s with pass := idle (exitWl s.pass) } := by
  have hexit := (h.good.inv h.running).exitOk.stats
  rw [exitWl_running h.running] at hexit ⊢
  obtain ⟨info, hwl⟩ := Validator.settleChanged_eq s.pass.pass.wl s.pass.pass.changed
  have hcounters := h.shape.counters.settle s.pass.pass.changed
  rw [State.wl] at hcounters
  rw [hwl] at hexit hcounters ⊢
  refine h.follow (fun _ => False) rfl ?_ (.same h.shape rfl hcounters) fun g hg => ⟨hg, id⟩
  exact good_idle ⟨h.good.ok.checked, h.good.ok.new⟩ hexit h.good.tags

theorem Inv.begin (h : Inv s) (hidle : s.pass.pass.changed.length = 0) :
    Inv { s with pass := ValidatePass.start s.wl } := by
  have hentries : entries (Validator.mergeNewFiles s.wl) = entries s.wl := by
    simp [entries, Validator.mergeNewFiles]
  refine h.follow (fun _ => False) rfl ?_ (.same h.shape hentries h.shape.counters)
    fun g hg => ⟨hg, id⟩
  exact good_start h.good.ok (h.stats hidle) h.tags

theorem Inv.rest (h : Inv s) (change : Workload Nat → Workload Nat) :
    Inv { s with pass := onWl s.pass (keepFiles change s.wl) } := by
  have hch : Changed s.wl (keepFiles change s.wl) (fun _ => 0) (fun _ => 0) :=
    ⟨rfl, h.good.ok.checked, h.good.ok.new, fun c _ => (add_zero _).symm, fun c _ => (add_zero _).symm⟩
  refine h.follow (fun _ => False) h.running ?_ (.same h.shape rfl h.shape.counters)
    fun g hg => ⟨hg, id⟩
  exact h.good.of_tracks hch.tracks h.good.tags fun p _ f hf _ => ⟨f, hf, .refl f⟩

theorem forget_spec (a : ValidatePass.Act) (live : List Bytes) :
    ∀ h ∈ forget a live, h ∈ live ∧ ¬ a = .delete h := by
  intro h hh
  cases a with
  | delete hash =>
    obtain ⟨hmem, hne⟩ := List.mem_filter.mp hh
    refine ⟨hmem, fun heq => of_decide_eq_true hne ?_⟩
    cases heq
    rfl
  | _ => exact ⟨hh, fun heq => by cases heq⟩

theorem Inv.inPass {sha256 : Bytes → Hash} {mem : Mem} {a : ValidatePass.Act}
    {pass : ValidatePass.State Nat} (h : Inv s)
    (hstep : ValidatePass.step sha256 mem s.pass a = some pass)
    (hok : keepsTrack sha256 mem s.pass a = true) :
    Inv { s with
      pass := if pass.pass.stopped then idle pass.pass.wl else pass
      live := forget a s.live } := by
  have hinv := (step_inv hstep (h.good.inv h.running)).1 hok
  have hfollow := follows_step h.shape hstep
  cases hstop : pass.pass.stopped with
  | false =>
    rw [if_neg Bool.false_ne_true]
    exact h.follow _ hstop (hinv.good hstop) hfollow (forget_spec a s.live)
  | true =>
    rw [if_pos rfl]
    refine h.follow _ rfl ?_ hfollow (forget_spec a s.live)
    have hstats := hinv.exitOk.stats
    rw [exitWl, if_pos hstop] at hstats
    obtain ⟨hc, hn⟩ := stopped_unchanged hstep h.running hstop
    refine good_idle ⟨?_, ?_⟩ hstats ?_
    · rw [hc]
      exact h.good.ok.checked
    · rw [hn]
      exact h.good.ok.new
    · rw [hc]
      exact h.good.tags

theorem Inv.next (h : Inv s) : Inv { s with next := s.next + 1 } :=
  ⟨h.running, h.good, h.shape, h.live, h.tags, fun f hf => Nat.lt_succ_of_lt (h.below f hf)⟩

theorem numbersFit_sealed {tag : Nat} {newHash orgHash : Hash} {nodeSize blockNum : Nat} {oldSize : Int}
    (h : numbersFit ⟨tag, Seal.fileEntry newHash orgHash nodeSize oldSize blockNum⟩ = true) :
    InRange oldSize ∧ IsEntry (Seal.fileEntry newHash orgHash nodeSize oldSize blockNum) := by
  simp only [numbersFit, Bool.and_eq_true, decide_eq_true_eq, FileItem.oldSize,
    Seal.fileEntry_oldSize, Seal.fileEntry_blockNum, Seal.fileEntry_size] at h
  obtain ⟨⟨hrange, hnode⟩, hblock⟩ := h
  have hlong : IsLong oldSize := by
    obtain ⟨h1, h2⟩ := hrange
    exact ⟨by omega, by omega⟩
  exact ⟨hrange, isEntry_fileEntry newHash orgHash hnode hlong hblock⟩

theorem Inv.add (h : Inv s) {e : FileItem Nat} (htag : e.tag = s.next) (hentry : IsEntry e.json)
    (hrange : InRange e.oldSize) (hcur : e.current = statusUnconfirmed) :
    Inv ⟨onWl s.pass ((s.wl.addNewFile e).setWlSpec statusUnconfirmed e.oldSize),
      s.live ++ [e.hashText], s.next + 1⟩ := by
  have hentries : entries ((s.wl.addNewFile e).setWlSpec statusUnconfirmed e.oldSize) =
      entries s.wl ++ [e] := by
    simp [entries, Workload.addNewFile, Workload.setWlSpec]
  have htracks := tracks_add h.good.ok ⟨hentry.hasStatus, hrange⟩ hcur
  refine ⟨h.running, ?_, ⟨fun f hf => ?_, ?_⟩, fun g hg => ?_, ?_, fun f hf => ?_⟩
  · exact h.good.of_tracks htracks h.good.tags fun p _ f hf _ => ⟨f, hf, .refl f⟩
  · rcases List.mem_append.mp (hentries ▸ hf) with hf | hf
    · exact h.shape.entry f hf
    · rw [List.mem_singleton.mp hf]
      exact hentry
  · apply IsCounters.set
    exact h.shape.counters
  · simp only [State.wl, onWl] at hentries ⊢
    rw [hentries]
    rcases List.mem_append.mp hg with hg | hg
    · obtain ⟨f, hf, hrest⟩ := h.live g hg
      exact ⟨f, List.mem_append_left _ hf, hrest⟩
    · refine ⟨e, List.mem_append_right _ List.mem_cons_self, (List.mem_singleton.mp hg).symm, ?_⟩
      rw [hcur]
      decide
  · simp only [State.wl, onWl] at hentries ⊢
    rw [hentries, List.map_append, List.map_cons, List.map_nil, htag]
    refine List.nodup_append.mpr ⟨h.tags, List.pairwise_singleton _ _, fun a ha b hb => ?_⟩
    obtain ⟨f, hf, rfl⟩ := List.mem_map.mp ha
    rw [List.mem_singleton.mp hb]
    exact Nat.ne_of_lt (h.below f hf)
  · rcases List.mem_append.mp (hentries ▸ hf) with hf | hf
    · exact Nat.lt_succ_of_lt (h.below f hf)
    · rw [List.mem_singleton.mp hf, htag]
      exact Nat.lt_succ_self _

theorem Inv.sealFile {sha256 : Bytes → Hash} {mem : Mem} {env : Seal.SealEnv} {treeText path : Bytes}
    {res : Seal.SealResult Nat} (h : Inv s)
    (hres : Seal.storageSealFile sha256 mem env s.next s.wl treeText path = some res)
    (hfit : res.wl.newFiles.all numbersFit = true) :
    Inv ⟨onWl s.pass res.wl,
      if res.status = .success then s.live ++ addedHashs s.wl res.wl else s.live, s.next + 1⟩ := by
  by_cases hs : res.status = .success
  · rw [if_pos hs]
    obtain ⟨treeJson, w, newRoot, newHash, orgHash, -, -, -, -, -, hwl⟩ :=
      Seal.storageSealFile_success hres hs
    rw [hwl] at hfit ⊢
    generalize (Merkle.treeOf treeJson).info.dataSize = os at hfit ⊢
    generalize he : (⟨s.next, Seal.fileEntry newHash orgHash w.nodeSize os w.blockNum⟩ :
      FileItem Nat) = e at hfit ⊢
    have hlast : numbersFit e = true :=
      List.all_eq_true.mp hfit e (List.mem_append_right _ List.mem_cons_self)
    obtain ⟨hrange, hentry⟩ := numbersFit_sealed (he ▸ hlast)
    obtain ⟨-, hcur, hos⟩ := sealed_entry s.next newHash orgHash w.nodeSize os w.blockNum hrange
    have hadded : addedHashs s.wl ((s.wl.addNewFile e).setWlSpec statusUnconfirmed os) =
        [e.hashText] := by
      simp [addedHashs, Workload.addNewFile, Workload.setWlSpec]
    rw [hadded]
    rw [he] at hcur hos
    have hadd := h.add (e := e) (by rw [← he]) (by rw [← he]; exact hentry) (by rw [hos]; exact hrange)
      hcur
    rwa [hos] at hadd
  · rw [if_neg hs, Seal.storageSealFile_failed hres hs]
    exact h.next

end

/-! ### A restart -/

section
variable {mem : Mem} {floatText : Bytes → Bytes → Bytes} {wl wl' : Workload Nat}

theorem stores_fits {senv : StoreEnv} (hopen : wl.upgradeStatus ≠ .success)
    (h : stores mem floatText senv wl) :
    encMalloc senv.mallocMeta (metaLen wl) = true ∧
      (sworkerPrivateTag ++ metadataJson mem floatText wl).length ≤ metaLen wl := by
  unfold stores storeMetadata idStoreMetadata at h
  rw [if_neg hopen] at h
  by_cases hm : encMalloc senv.mallocMeta (metaLen wl) = true
  · rw [if_neg (by simp [hm])] at h
    dsimp only at h
    by_cases hfits : (sworkerPrivateTag ++ metadataJson mem floatText wl).length ≤ metaLen wl
    · exact ⟨hm, hfits⟩
    · rw [if_neg hfits] at h
      cases h
  · rw [if_pos hm] at h
    cases h

theorem total_of_json {w : FileItem Nat → Int} (hw : ∀ f, w f = w ⟨0, f.json⟩)
    {l l' : List (FileItem Nat)} (h : l'.map FileItem.json = l.map FileItem.json) :
    total w l' = total w l := by
  have htext : ∀ m : List (FileItem Nat),
      total w m = ((m.map FileItem.json).map fun j => w ⟨0, j⟩).sum := by
    intro m
    rw [List.map_map]
    exact congrArg List.sum (List.map_congr_left fun f _ => hw f)
  rw [htext, htext, h]

theorem statsMatch_of_json (hspec : wl'.wlSpecInfo = wl.wlSpecInfo)
    (hjson : (entries wl').map FileItem.json = (entries wl).map FileItem.json)
    (h : StatsMatch wl) : StatsMatch wl' := by
  refine statsMatch_iff.mpr fun c hc => ?_
  obtain ⟨hn, hs⟩ := statsMatch_iff.mp h c hc
  rw [specNum_congr hspec, specSize_congr hspec, hn, hs,
    total_of_json (w := numWeight c) (fun _ => rfl) hjson,
    total_of_json (w := sizeWeight c) (fun _ => rfl) hjson]
  exact ⟨rfl, rfl⟩

theorem exists_of_json {l l' : List (FileItem Nat)}
    (h : l'.map FileItem.json = l.map FileItem.json) {f : FileItem Nat} (hf : f ∈ l') :
    ∃ e ∈ l, e.json = f.json := by
  have hmem : f.json ∈ l.map FileItem.json := h ▸ List.mem_map_of_mem hf
  exact List.mem_map.mp hmem

end

section
variable {mem : Mem} {floatText : Bytes → Bytes → Bytes} {s : State}

theorem Inv.restart (h : Inv s) {senv : StoreEnv} {renv : RestoreEnv} (db : Option Bytes)
    (keys : KeyPair) (pre : PubKey) (hidle : s.pass.pass.changed.length = 0)
    (hstores : stores mem floatText senv s.wl) (hnew : s.wl.newFiles.length = 0)
    (hr : Restorable floatText s.wl renv) :
    ∃ wl', restored mem floatText s senv renv db keys pre = some (.success, wl') ∧
      Kept s.live wl' ∧ Inv ⟨idle wl', s.live, s.next + s.wl.checkedFiles.length⟩ := by
  obtain ⟨hmalloc, hfits⟩ := stores_fits hr.notHandedOver hstores
  obtain ⟨wl', hrun, hsame, hspec, hnew', htags⟩ := restores_stored (fun i => s.next + i) db rfl
    ⟨hr.noEscapes.1, hr.noEscapes.2⟩ ⟨hr.noTags.1, hr.noTags.2⟩
    ⟨hr.paths, h.shape.checked, h.shape.counters.isSpec hr.counters⟩ hr.notHandedOver hr.height
    hmalloc hfits ⟨hr.malloc.1, hr.malloc.2, hr.buffers, hr.spec⟩
  have hold : entries s.wl = s.wl.checkedFiles := by
    rw [entries, List.length_eq_zero_iff.mp hnew, List.append_nil]
  have hnow : entries wl' = wl'.checkedFiles := by
    rw [entries, hnew', List.append_nil]
  have hjson : (entries wl').map FileItem.json = (entries s.wl).map FileItem.json := by
    rw [hnow, hold, hsame.files]
  have hstats : StatsMatch wl' := statsMatch_of_json hspec hjson (h.stats hidle)
  have hlive : ∀ g ∈ s.live, ∃ f ∈ entries wl', f.hashText = g ∧ f.current ≠ statusDeleted := by
    intro g hg
    obtain ⟨f, hf, hhash, hcur⟩ := h.live g hg
    obtain ⟨e, he, heq⟩ := exists_of_json hjson.symm hf
    refine ⟨e, he, ?_, ?_⟩
    · rw [FileItem.hashText, heq, ← FileItem.hashText, hhash]
    · rw [FileItem.current, FileItem.statusChar, FileItem.status, heq]
      exact hcur
  have hentry : ∀ f ∈ wl'.checkedFiles, EntryOk f ∧ IsEntry f.json := by
    intro f hf
    obtain ⟨e, he, heq⟩ := exists_of_json hsame.files hf
    have hshape := heq ▸ h.shape.checked e he
    refine ⟨⟨hshape.hasStatus, ?_⟩, hshape⟩
    have hsize : e.oldSize = f.oldSize := by rw [FileItem.oldSize, heq, FileItem.oldSize]
    rw [← hsize]
    exact (h.good.ok.checked e he).size
  have hnodup : (wl'.checkedFiles.map FileItem.tag).Nodup := by
    rw [htags]
    exact List.pairwise_map.mpr
      (List.nodup_range.imp fun hne heq => hne (Nat.add_left_cancel heq))
  refine ⟨wl', hrun, ⟨hlive, hstats⟩, rfl, good_idle ⟨fun f hf => (hentry f hf).1, fun f hf => ?_⟩ hstats
    hnodup, ⟨fun f hf => ?_, ?_⟩, hlive, ?_, fun f hf => ?_⟩
  · rw [hnew'] at hf
    cases hf
  · exact (hentry f (hnow ▸ hf)).2
  · have hcounters := h.shape.counters
    rw [← hspec] at hcounters
    exact hcounters
  · have hnow' : entries (State.wl ⟨idle wl', s.live, s.next + s.wl.checkedFiles.length⟩) =
        wl'.checkedFiles := hnow
    rw [hnow']
    exact hnodup
  · have hmem : f.tag ∈ wl'.checkedFiles.map FileItem.tag := List.mem_map_of_mem (hnow ▸ hf)
    rw [htags] at hmem
    obtain ⟨i, hi, htag⟩ := List.mem_map.mp hmem
    have hlt := List.mem_range.mp hi
    have hbound : f.tag < s.next + s.wl.checkedFiles.length := by omega
    exact hbound

end

/-! ### Whole runs -/

section
variable {sha256 : Bytes → Hash} {mem : Mem} {floatText : Bytes → Bytes → Bytes}

theorem inv_start (keys : KeyPair) (pre : PubKey) : Inv (start keys pre) := by
  have hinit := FileStats.inv_init (τ := Nat) keys pre
  refine ⟨rfl, good_idle hinit.ok hinit.stats List.nodup_nil, ⟨fun f hf => ?_, ?_⟩, fun g hg => ?_,
    List.nodup_nil, fun f hf => ?_⟩
  · cases hf
  · obtain ⟨fields, hf, hs, hrows⟩ := (isSpec_init (τ := Nat) keys pre).fields
    refine ⟨fields, hf, hs, fun p hp => ?_⟩
    obtain ⟨hkey, sub, hsub, hss, hq⟩ := hrows p hp
    refine ⟨hkey, sub, hsub, hss, fun q hqm => ?_⟩
    obtain ⟨hqk, n, hn, -⟩ := hq q hqm
    exact ⟨hqk, n, hn⟩
  · cases hg
  · cases hf

theorem Inv.step {s s' : State} {a : Act} (hstep : step sha256 mem floatText s a = some s')
    (hok : Complete sha256 mem floatText s a) (h : Inv s) : Inv s' := by
  cases a with
  | sealFile env treeText path =>
    obtain ⟨res, hres, rfl⟩ := Option.map_eq_some_iff.mp hstep
    simp only [Complete, hres, Option.all_some] at hok
    exact h.sealFile hres hok
  | begin =>
    simp only [Restart.step] at hstep
    split_ifs at hstep with hidle
    cases hstep
    exact h.begin hidle
  | inPass a =>
    obtain ⟨pass, hpass, rfl⟩ := Option.map_eq_some_iff.mp hstep
    exact h.inPass hpass hok
  | finish =>
    cases hstep
    exact h.finish
  | rest change =>
    cases hstep
    exact h.rest change
  | restart senv renv db keys pre =>
    simp only [Restart.step] at hstep
    split_ifs at hstep with hgo
    obtain ⟨wl', hrun, -, hinv⟩ := h.restart db keys pre hgo.1 hgo.2 hok.1 hok.2
    rw [hrun] at hstep
    cases hstep
    exact hinv

end

/-! ### A file before and after the merge -/

def smallStep : State → Act → Option State := step Sha256.sha256 plainMem fun v _ => v

def sealAbc : Act := .sealFile (Seal.hostEnv (.success, some (str "abc"))) Seal.abcLeaf (str "p")

end CrustSworker.Restart
