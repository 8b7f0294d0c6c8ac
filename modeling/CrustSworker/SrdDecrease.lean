import CrustSworker.SrdInfo

/-!
# What `srd_decrease` removes

The positions to delete are chosen in rounds: each round takes the next position from the end of
every path that still has one, around the positions that were chosen before. The loop looks at
the number between two rounds only, so it may pass the number that was asked for by up to the
number of paths. The removed positions are those of `chosenBy` for some number of rounds.
-/

namespace CrustSworker.SrdDecrease

open OrderedMap Srd SrdInfo

variable {τ : Type}

def idxsOf (del : DelIndex) (path : Bytes) : List Nat := (findKey path del).getD []

def removeAt {α : Type} (idxs : List Nat) (l : List α) : List α :=
  (l.zipIdx.filter fun p => decide (p.2 ∉ idxs)).map Prod.fst

def isChosen (start : DelIndex) (k : Nat) (entry : Bytes × List Bytes) (i : Nat) : Bool :=
  decide (i ∈ idxsOf start entry.1) || decide (entry.2.length ≤ i + k)

def chosenBy (m : PathMap) (start : DelIndex) (k : Nat) : Nat :=
  (m.map fun entry => (List.range entry.2.length).countP (isChosen start k entry)).sum

structure Chosen (m : PathMap) (start : DelIndex) : Prop where
  sorted : Sorted ltBytes start
  ascending : ∀ entry ∈ start, entry.2.Pairwise (· < ·)
  inRange : ∀ entry ∈ start, ∀ i ∈ entry.2, i < (hashsOf m entry.1).length

/-- The call removes what was asked for: the loop ends, all of `start` is among the removed
positions, their number is right, and the other hashes stay in their order. -/
structure RemovesExactly (mem : Mem) (answer : Nat → CrustStatus) (wl : Workload τ) (change : Int)
    (start : DelIndex) : Prop where
  terminates : ∀ fuel, srdTotal wl.srdPath2hashs < fuel →
    chooseLoop wl.srdPath2hashs (min change (srdTotal wl.srdPath2hashs)) fuel 1 start
        (weigh List.length start) =
      chooseLoop wl.srdPath2hashs (min change (srdTotal wl.srdPath2hashs))
        (srdTotal wl.srdPath2hashs + 1) 1 start (weigh List.length start)
  removes : ∃ n wl', srdDecrease mem answer wl change start = some (n, wl') ∧
    (∃ gone : Bytes → List Nat, ∀ path,
      (gone path).Pairwise (· < ·) ∧
      (∀ i ∈ gone path, i < (hashsOf wl.srdPath2hashs path).length) ∧
      (∀ i ∈ idxsOf start path, i ∈ gone path) ∧
      hashsOf wl'.srdPath2hashs path = removeAt (gone path) (hashsOf wl.srdPath2hashs path)) ∧
    (srdTotal wl'.srdPath2hashs : Int) + min change (srdTotal wl.srdPath2hashs) =
      srdTotal wl.srdPath2hashs

/-! ### Sets of positions -/

theorem mem_insertIndex {i j : Nat} {l : List Nat} : j ∈ insertIndex i l ↔ j = i ∨ j ∈ l := by
  induction l with
  | nil => simp [insertIndex]
  | cons a l ih =>
    simp only [insertIndex]
    split_ifs with hlt heq
    · simp
    · subst heq
      simp
    · simp only [List.mem_cons, ih]
      tauto

theorem ascending_insertIndex {i : Nat} {l : List Nat} (h : l.Pairwise (· < ·)) :
    (insertIndex i l).Pairwise (· < ·) := by
  induction l with
  | nil => exact List.pairwise_singleton _ _
  | cons a l ih =>
    obtain ⟨hhead, htail⟩ := List.pairwise_cons.mp h
    simp only [insertIndex]
    split_ifs with hlt heq
    · refine List.pairwise_cons.mpr ⟨fun b hb => ?_, h⟩
      rcases List.mem_cons.mp hb with rfl | hb
      · exact hlt
      · exact hlt.trans (hhead b hb)
    · exact h
    · refine List.pairwise_cons.mpr ⟨fun b hb => ?_, ih htail⟩
      rcases mem_insertIndex.mp hb with rfl | hb
      · omega
      · exact hhead b hb

theorem length_insertIndex {i : Nat} {l : List Nat} (h : i ∉ l) :
    (insertIndex i l).length = l.length + 1 := by
  induction l with
  | nil => rfl
  | cons a l ih =>
    simp only [insertIndex]
    split_ifs with hlt heq
    · rfl
    · exact absurd (heq ▸ List.mem_cons_self) h
    · rw [List.length_cons, ih fun hi => h (List.mem_cons_of_mem _ hi), List.length_cons]

theorem removeAt_append {α : Type} {idxs : List Nat} {a b : List α}
    (h : ∀ i ∈ idxs, i < a.length) : removeAt idxs (a ++ b) = removeAt idxs a ++ b := by
  have hkeep : (b.zipIdx a.length).filter (fun p => decide (p.2 ∉ idxs)) = b.zipIdx a.length := by
    refine List.filter_eq_self.mpr fun p hp => ?_
    have hge := List.le_snd_of_mem_zipIdx hp
    refine decide_eq_true fun hi => ?_
    have := h _ hi
    omega
  rw [removeAt, List.zipIdx_append, List.filter_append, List.map_append, Nat.zero_add, hkeep,
    List.zipIdx_map_fst]
  rfl

theorem removeAt_last {α : Type} {idxs : List Nat} {i : Nat} {l : List α} (hi : i < l.length)
    (h : ∀ j ∈ idxs, j < i) : removeAt (idxs ++ [i]) l = removeAt idxs (l.eraseIdx i) := by
  obtain ⟨a, x, b, rfl, rfl⟩ : ∃ a x b, l = a ++ x :: b ∧ a.length = i :=
    ⟨l.take i, l[i], l.drop (i + 1), by simp, by simp; omega⟩
  have herase : (a ++ x :: b).eraseIdx a.length = a ++ b := by
    rw [List.eraseIdx_append_of_length_le (Nat.le_refl _)]
    simp
  have hcons : a ++ x :: b = (a ++ [x]) ++ b := by simp
  have hinit : ∀ j ∈ idxs ++ [a.length], j < (a ++ [x]).length := by
    intro j hj
    rw [List.length_append, List.length_singleton]
    rcases List.mem_append.mp hj with hj | hj
    · have := h j hj
      omega
    · rw [List.mem_singleton.mp hj]
      omega
  rw [herase, removeAt_append h, hcons, removeAt_append hinit]
  congr 1
  rw [removeAt, removeAt, List.zipIdx_append, List.filter_append, List.map_append]
  have hx : ([x].zipIdx (0 + a.length)).filter (fun p => decide (p.2 ∉ idxs ++ [a.length])) = [] := by
    simp
  have ha : a.zipIdx.filter (fun p => decide (p.2 ∉ idxs ++ [a.length])) =
      a.zipIdx.filter (fun p => decide (p.2 ∉ idxs)) := by
    refine List.filter_congr fun p hp => ?_
    have hlt := List.snd_lt_of_mem_zipIdx hp
    have hne : p.2 ≠ a.length := by omega
    simp [hne]
  rw [hx, ha]
  simp

theorem foldl_eraseIdx {α : Type} {idxs : List Nat} (h : idxs.Pairwise (· < ·)) {l : List α}
    (hr : ∀ i ∈ idxs, i < l.length) :
    idxs.reverse.foldl List.eraseIdx l = removeAt idxs l := by
  induction idxs using List.reverseRecOn generalizing l with
  | nil => simp [removeAt]
  | append_singleton idxs i ih =>
    obtain ⟨hinit, -, hlast⟩ := List.pairwise_append.mp h
    have hlt : ∀ j ∈ idxs, j < i := fun j hj => hlast j hj i (List.mem_singleton_self i)
    have hi : i < l.length := hr i (by simp)
    rw [List.reverse_append, List.reverse_singleton, List.singleton_append, List.foldl_cons,
      removeAt_last hi hlt]
    refine ih hinit fun j hj => ?_
    rw [List.length_eraseIdx_of_lt hi]
    have := hlt j hj
    omega

/-! ### Choosing -/

/-- `del` has the positions of `start` and the last `rounds path` of every path. -/
structure Covers (m : PathMap) (start : DelIndex) (rounds : Bytes → Nat) (del : DelIndex) :
    Prop where
  sorted : Sorted ltBytes del
  ascending : ∀ path, (idxsOf del path).Pairwise (· < ·)
  mem_iff : ∀ path i, i ∈ idxsOf del path ↔ i ∈ idxsOf start path ∨
    (i < (hashsOf m path).length ∧ (hashsOf m path).length ≤ i + rounds path)

theorem Covers.congr {m : PathMap} {start del : DelIndex} {r r' : Bytes → Nat}
    (h : Covers m start r del) (hr : ∀ path, (hashsOf m path).length ≠ 0 → r path = r' path) :
    Covers m start r' del := by
  refine ⟨h.sorted, h.ascending, fun path i => ?_⟩
  rw [h.mem_iff]
  refine or_congr_right (and_congr_right fun hi => ?_)
  rw [hr path (by omega)]

theorem idxsOf_insertKey (del : DelIndex) (q p : Bytes) (v : List Nat) :
    idxsOf (insertKey ltBytes q v del) p = if p = q then v else idxsOf del p := by
  unfold idxsOf
  split_ifs with h
  · subst h
    rw [findKey_insertKey_self]
    rfl
  · rw [findKey_insertKey_ne ltBytes h]

theorem weightAt_length (del : DelIndex) (path : Bytes) :
    weightAt List.length del path = (idxsOf del path).length := by
  unfold weightAt idxsOf
  cases findKey path del with
  | none => rfl
  | some idxs => rfl

section
variable {m : PathMap} {start : DelIndex}

theorem hashsOf_of_mem (hm : Sorted ltBytes m) {entry : Bytes × List Bytes} (h : entry ∈ m) :
    hashsOf m entry.1 = entry.2 := by
  rw [hashsOf, findKey_of_mem isOrder_ltBytes hm h, Option.getD_some]

theorem mem_of_hashsOf {path : Bytes} (h : (hashsOf m path).length ≠ 0) :
    ∃ entry ∈ m, entry.1 = path := by
  unfold hashsOf at h
  cases hf : findKey path m with
  | none =>
    rw [hf] at h
    exact absurd rfl h
  | some v => exact ⟨(path, v), mem_of_findKey hf, rfl⟩

theorem covers_chooseIn (hm : Sorted ltBytes m) {c : Choice} {rounds : Bytes → Nat}
    {entry : Bytes × List Bytes} (he : entry ∈ m) (h : Covers m start rounds c.del)
    (hnum : c.num = weigh List.length c.del) :
    Covers m start (fun p => if p = entry.1 then rounds p + 1 else rounds p)
        (chooseIn (rounds entry.1 + 1) c entry).del ∧
      (chooseIn (rounds entry.1 + 1) c entry).num =
        weigh List.length (chooseIn (rounds entry.1 + 1) c entry).del := by
  have hlen := hashsOf_of_mem hm he
  have hold : (findKey entry.1 c.del).getD [] = idxsOf c.del entry.1 := rfl
  unfold chooseIn
  split_ifs with hge
  · dsimp only
    rw [hold]
    have hweigh : ∀ v, weigh List.length (insertKey ltBytes entry.1 v c.del) +
        (idxsOf c.del entry.1).length = weigh List.length c.del + v.length := by
      intro v
      rw [← weightAt_length]
      exact weigh_insertKey isOrder_ltBytes h.sorted List.length entry.1 v
    split_ifs with hin
    · refine ⟨⟨h.sorted.insertKey isOrder_ltBytes _ _, fun p => ?_, fun p i => ?_⟩, ?_⟩
      · rw [idxsOf_insertKey]
        split_ifs
        · exact h.ascending _
        · exact h.ascending _
      · rw [idxsOf_insertKey]
        split_ifs with hp
        · subst hp
          rw [h.mem_iff, hlen]
          rw [h.mem_iff, hlen] at hin
          constructor
          · rintro (hi | hi)
            · exact .inl hi
            · exact .inr (by omega)
          · rintro (hi | hi)
            · exact .inl hi
            · by_cases hti : i = entry.2.length - (rounds entry.1 + 1)
              · rw [hti]
                exact hin
              · exact .inr (by omega)
        · exact h.mem_iff p i
      · have := hweigh (idxsOf c.del entry.1)
        dsimp only
        omega
    · refine ⟨⟨h.sorted.insertKey isOrder_ltBytes _ _, fun p => ?_, fun p i => ?_⟩, ?_⟩
      · rw [idxsOf_insertKey]
        split_ifs
        · exact ascending_insertIndex (h.ascending _)
        · exact h.ascending _
      · rw [idxsOf_insertKey]
        split_ifs with hp
        · subst hp
          rw [mem_insertIndex, h.mem_iff, hlen]
          constructor
          · rintro (rfl | hi | hi)
            · exact .inr (by omega)
            · exact .inl hi
            · exact .inr (by omega)
          · rintro (hi | hi)
            · exact .inr (.inl hi)
            · by_cases hti : i = entry.2.length - (rounds entry.1 + 1)
              · exact .inl hti
              · exact .inr (.inr (by omega))
        · exact h.mem_iff p i
      · have := hweigh (insertIndex (entry.2.length - (rounds entry.1 + 1)) (idxsOf c.del entry.1))
        rw [length_insertIndex hin] at this
        dsimp only
        omega
  · refine ⟨⟨h.sorted, h.ascending, fun p i => ?_⟩, hnum⟩
    rw [h.mem_iff]
    refine or_congr_right (and_congr_right fun hi => ?_)
    split_ifs with hp
    · subst hp
      rw [hlen] at hi ⊢
      omega
    · rfl

theorem covers_round (hm : Sorted ltBytes m) {k : Nat} {todo : PathMap} (hsub : todo.Sublist m)
    {c : Choice}
    (h : Covers m start (fun p => if p ∈ todo.map Prod.fst then k else k + 1) c.del)
    (hnum : c.num = weigh List.length c.del) :
    Covers m start (fun _ => k + 1) (todo.foldl (chooseIn (k + 1)) c).del ∧
      (todo.foldl (chooseIn (k + 1)) c).num =
        weigh List.length (todo.foldl (chooseIn (k + 1)) c).del := by
  induction todo generalizing c with
  | nil => exact ⟨by simpa using h, hnum⟩
  | cons entry todo ih =>
    have hsorted : Sorted ltBytes (entry :: todo) := List.Pairwise.sublist hsub hm
    have hne := hsorted.head_ne isOrder_ltBytes
    obtain ⟨hcov, hnum'⟩ := covers_chooseIn hm (hsub.subset List.mem_cons_self) h hnum
    simp only [List.map_cons, List.mem_cons, true_or, if_true] at hcov hnum'
    rw [List.foldl_cons]
    refine ih ((List.sublist_cons_self _ _).trans hsub) (hcov.congr fun p _ => ?_) hnum'
    by_cases hp : p = entry.1
    · subst hp
      have hnot : entry.1 ∉ todo.map Prod.fst := by
        intro hmem
        obtain ⟨q, hq, heq⟩ := List.mem_map.mp hmem
        exact hne q hq heq
      rw [if_pos rfl, if_pos (.inl rfl), if_neg hnot]
    · simp only [hp, if_false, false_or]

theorem endOfTraverse_round (s : Nat) (todo : PathMap) (c : Choice)
    (h : (todo.foldl (chooseIn s) c).endOfTraverse = true) :
    c.endOfTraverse = true ∧ ∀ entry ∈ todo, entry.2.length < s := by
  induction todo generalizing c with
  | nil => exact ⟨h, by simp⟩
  | cons entry todo ih =>
    rw [List.foldl_cons] at h
    obtain ⟨hend, hrest⟩ := ih _ h
    unfold chooseIn at hend
    split_ifs at hend with hge
    · dsimp only at hend
      split_ifs at hend
    · refine ⟨hend, fun e he => ?_⟩
      rcases List.mem_cons.mp he with rfl | he
      · omega
      · exact hrest e he

theorem Chosen.mem_inRange (hstart : Chosen m start) {path : Bytes} {i : Nat}
    (hi : i ∈ idxsOf start path) : i < (hashsOf m path).length := by
  unfold idxsOf at hi
  cases hf : findKey path start with
  | none =>
    rw [hf] at hi
    cases hi
  | some idxs =>
    rw [hf] at hi
    exact hstart.inRange (path, idxs) (mem_of_findKey hf) i hi

theorem Covers.inRange (hstart : Chosen m start) {del : DelIndex} {r : Bytes → Nat}
    (h : Covers m start r del) {path : Bytes} {i : Nat} (hi : i ∈ idxsOf del path) :
    i < (hashsOf m path).length := by
  rcases (h.mem_iff path i).mp hi with hi | hi
  · exact hstart.mem_inRange hi
  · exact hi.1

theorem Covers.weigh_eq (hm : Sorted ltBytes m) (hstart : Chosen m start) {del : DelIndex} {k : Nat}
    (h : Covers m start (fun _ => k) del) : weigh List.length del = chosenBy m start k := by
  have hkeys : ∀ p ∈ del, List.length p.2 ≠ 0 → ∃ e ∈ m, e.1 = p.1 := by
    intro p hp hne
    obtain ⟨i, hi⟩ := List.exists_mem_of_length_pos (Nat.pos_of_ne_zero hne)
    have hidx : i ∈ idxsOf del p.1 := by
      rw [idxsOf, findKey_of_mem isOrder_ltBytes h.sorted hp]
      exact hi
    refine mem_of_hashsOf ?_
    have := h.inRange hstart hidx
    omega
  rw [← sum_weightAt isOrder_ltBytes h.sorted hm List.length hkeys, chosenBy]
  congr 1
  refine List.map_congr_left fun e he => ?_
  have hlen := hashsOf_of_mem hm he
  rw [weightAt_length, List.countP_eq_length_filter]
  refine List.Perm.length_eq ((List.perm_ext_iff_of_nodup ?_ ?_).mpr fun i => ?_)
  · exact (h.ascending e.1).imp fun hlt => Nat.ne_of_lt hlt
  · exact List.nodup_range.filter _
  · rw [h.mem_iff, hlen, List.mem_filter, List.mem_range, isChosen, Bool.or_eq_true,
      decide_eq_true_eq, decide_eq_true_eq]
    constructor
    · rintro (hi | hi)
      · have := hstart.mem_inRange hi
        rw [hlen] at this
        exact ⟨this, .inl hi⟩
      · exact ⟨hi.1, .inr hi.2⟩
    · rintro ⟨hlt, hi | hi⟩
      · exact .inl hi
      · exact .inr ⟨hlt, hi⟩

theorem sum_map_le {α : Type} {l : List α} {f g : α → Nat} (h : ∀ a ∈ l, f a ≤ g a) :
    (l.map f).sum ≤ (l.map g).sum := by
  induction l with
  | nil => exact Nat.le_refl _
  | cons a l ih =>
    have hhead := h a List.mem_cons_self
    have htail := ih fun b hb => h b (List.mem_cons_of_mem _ hb)
    rw [List.map_cons, List.map_cons, List.sum_cons, List.sum_cons]
    omega

theorem chosenBy_mono (m : PathMap) (start : DelIndex) {j k : Nat} (h : j ≤ k) :
    chosenBy m start j ≤ chosenBy m start k := by
  refine sum_map_le fun entry _ => List.countP_mono_left fun i _ hi => ?_
  simp only [isChosen, Bool.or_eq_true, decide_eq_true_eq] at hi ⊢
  rcases hi with hi | hi
  · exact .inl hi
  · exact .inr (by omega)

theorem chosenBy_all {k : Nat} (h : ∀ entry ∈ m, entry.2.length ≤ k) :
    chosenBy m start k = srdTotal m := by
  refine congrArg List.sum (List.map_congr_left fun entry he => ?_)
  have hall : (List.range entry.2.length).countP (isChosen start k entry) =
      (List.range entry.2.length).length := by
    refine List.countP_eq_length.mpr fun i _ => ?_
    have := h entry he
    simp only [isChosen, Bool.or_eq_true, decide_eq_true_eq]
    omega
  rw [hall, List.length_range]

theorem covers_start (hstart : Chosen m start) : Covers m start (fun _ => 0) start where
  sorted := hstart.sorted
  ascending path := by
    unfold idxsOf
    cases hf : findKey path start with
    | none => exact List.Pairwise.nil
    | some idxs => exact hstart.ascending (path, idxs) (mem_of_findKey hf)
  mem_iff path i := by
    constructor
    · exact .inl
    · rintro (hi | hi)
      · exact hi
      · omega

theorem covers_chooseLoop (hm : Sorted ltBytes m) (hstart : Chosen m start) {change : Int}
    (hle : change ≤ srdTotal m) {fuel k : Nat} {del : DelIndex} {num : Nat}
    (hf : srdTotal m + 1 ≤ k + fuel) (h : Covers m start (fun _ => k) del)
    (hnum : num = weigh List.length del) (hlow : ∀ j < k, (chosenBy m start j : Int) < change) :
    ∃ k', Covers m start (fun _ => k') (chooseLoop m change fuel (k + 1) del num) ∧
      change ≤ chosenBy m start k' ∧ ∀ j < k', (chosenBy m start j : Int) < change := by
  induction fuel generalizing k del num with
  | zero =>
    refine ⟨k, h, ?_, hlow⟩
    rw [chosenBy_all fun entry he => ?_]
    · exact hle
    · have := length_le_srdTotal he
      omega
  | succ fuel ih =>
    rw [chooseLoop]
    have hcount : num = chosenBy m start k := hnum.trans (h.weigh_eq hm hstart)
    split_ifs with hlt
    · have hround := covers_round hm (List.Sublist.refl m) (c := ⟨del, num, true⟩)
        (h.congr fun path hne => by
          obtain ⟨entry, he, rfl⟩ := mem_of_hashsOf hne
          rw [if_pos (List.mem_map_of_mem he)]) hnum
      dsimp only
      split_ifs with hend
      · -- No path is that long, so all hashes were chosen before.
        have hshort := (endOfTraverse_round _ _ _ hend).2
        have hall : chosenBy m start k = srdTotal m :=
          chosenBy_all fun entry he => Nat.le_of_lt_succ (hshort entry he)
        rw [hcount, hall] at hlt
        omega
      · refine ih (by omega) hround.1 hround.2 fun j hj => ?_
        rcases Nat.lt_succ_iff_lt_or_eq.mp hj with hj | rfl
        · exact hlow j hj
        · rw [← hcount]
          exact hlt
    · refine ⟨k, h, ?_, hlow⟩
      rw [← hcount]
      omega

/-! ### Erasing -/

theorem erasePath_spec (mem : Mem) (gone : PathMap) {path : Bytes} {is : List Nat} {m : PathMap}
    (hm : Sorted ltBytes m) (hdesc : is.Pairwise (· > ·))
    (hr : ∀ i ∈ is, i < (hashsOf m path).length) :
    ∃ r, erasePath mem path is m gone = some r ∧ Sorted ltBytes r.1 ∧
      (∀ p, hashsOf r.1 p =
        if p = path then is.foldl List.eraseIdx (hashsOf m path) else hashsOf m p) ∧
      srdTotal r.1 + is.length = srdTotal m := by
  induction is generalizing m gone with
  | nil =>
    refine ⟨(m, gone), rfl, hm, fun p => ?_, rfl⟩
    split_ifs with hp
    · rw [hp]
      rfl
    · rfl
  | cons i is ih =>
    obtain ⟨hhead, htail⟩ := List.pairwise_cons.mp hdesc
    have hi := hr i List.mem_cons_self
    have hlen := List.length_eraseIdx_of_lt hi
    have hself : hashsOf (insertKey ltBytes path ((hashsOf m path).eraseIdx i) m) path =
        (hashsOf m path).eraseIdx i := by rw [hashsOf_insertKey, if_pos rfl]
    have hrest : ∀ j ∈ is,
        j < (hashsOf (insertKey ltBytes path ((hashsOf m path).eraseIdx i) m) path).length := by
      intro j hj
      rw [hself, hlen]
      have := hhead j hj
      omega
    obtain ⟨r, hrun, hsorted, hmap, htotal⟩ := ih
      (Workload.pushHash gone path (mem.read ((hashsOf m path)[i]) hashLength).val)
      (hm.insertKey isOrder_ltBytes _ _) htail hrest
    refine ⟨r, ?_, hsorted, fun p => ?_, ?_⟩
    · rw [erasePath, List.getElem?_eq_getElem hi]
      exact hrun
    · rw [hmap, hself]
      split_ifs with hp
      · rfl
      · rw [hashsOf_insertKey, if_neg hp]
    · have hweigh := weigh_insertKey isOrder_ltBytes hm List.length path
        ((hashsOf m path).eraseIdx i)
      have hat : weightAt List.length m path = (hashsOf m path).length := by
        unfold weightAt hashsOf
        cases findKey path m with
        | none => rfl
        | some v => rfl
      change weigh List.length r.1 + _ = weigh List.length _ at htotal
      change weigh List.length r.1 + _ = weigh List.length m
      rw [hat, hlen] at hweigh
      rw [List.length_cons]
      omega

theorem eraseChosen_spec (mem : Mem) (gone : PathMap) {del : DelIndex} {m : PathMap} (hm : Sorted ltBytes m)
    (hdel : Sorted ltBytes del) (hasc : ∀ entry ∈ del, entry.2.Pairwise (· < ·))
    (hr : ∀ entry ∈ del, ∀ i ∈ entry.2, i < (hashsOf m entry.1).length) :
    ∃ r, eraseChosen mem del m gone = some r ∧
      (∀ p, hashsOf r.1 p = removeAt (idxsOf del p) (hashsOf m p)) ∧
      srdTotal r.1 + weigh List.length del = srdTotal m := by
  induction del generalizing m gone with
  | nil =>
    refine ⟨(m, gone), rfl, fun p => ?_, rfl⟩
    simp [idxsOf, findKey, removeAt]
  | cons entry del ih =>
    obtain ⟨path, idxs⟩ := entry
    have hne := hdel.head_ne isOrder_ltBytes
    have hasc0 := hasc (path, idxs) List.mem_cons_self
    have hr0 := hr (path, idxs) List.mem_cons_self
    have hdesc : idxs.reverse.Pairwise (· > ·) := List.pairwise_reverse.mpr hasc0
    obtain ⟨r₁, hrun₁, hsorted₁, hmap₁, htotal₁⟩ := erasePath_spec mem gone hm hdesc
      fun i hi => hr0 i (List.mem_reverse.mp hi)
    obtain ⟨r, hrun, hmap, htotal⟩ := ih r₁.2 hsorted₁
      (List.pairwise_cons.mp hdel).2 (fun e he => hasc e (List.mem_cons_of_mem _ he))
      fun e he i hi => by
        rw [hmap₁, if_neg (hne e he)]
        exact hr e (List.mem_cons_of_mem _ he) i hi
    refine ⟨r, ?_, fun p => ?_, ?_⟩
    · rw [eraseChosen, hrun₁]
      exact hrun
    · rw [hmap, hmap₁]
      split_ifs with hp
      · subst hp
        have hnil : idxsOf del p = [] := by rw [idxsOf, findKey_none hne, Option.getD_none]
        have hself : idxsOf ((p, idxs) :: del) p = idxs := by simp [idxsOf, findKey]
        rw [hnil, hself, foldl_eraseIdx hasc0 hr0]
        simp [removeAt]
      · have hother : idxsOf ((path, idxs) :: del) p = idxsOf del p := by
          simp [idxsOf, findKey, hp]
        rw [hother]
    · rw [List.length_reverse] at htotal₁
      have hcons : weigh List.length ((path, idxs) :: del) = idxs.length + weigh List.length del :=
        rfl
      omega

end

/-! ### The call -/

section
variable {mem : Mem} {answer : Nat → CrustStatus} {wl : Workload τ} {change : Int}
  {start : DelIndex}

theorem srdDecrease_spec (mem : Mem) (answer : Nat → CrustStatus) (hm : Sorted ltBytes wl.srdPath2hashs)
    (hstart : Chosen wl.srdPath2hashs start) (hchange : 0 < change) :
    ∃ n wl' k, srdDecrease mem answer wl change start = some (n, wl') ∧
      (∃ del, Covers wl.srdPath2hashs start (fun _ => k) del ∧ ∀ path,
        hashsOf wl'.srdPath2hashs path =
          removeAt (idxsOf del path) (hashsOf wl.srdPath2hashs path)) ∧
      srdTotal wl'.srdPath2hashs + chosenBy wl.srdPath2hashs start k =
        srdTotal wl.srdPath2hashs ∧
      min change (srdTotal wl.srdPath2hashs) ≤ chosenBy wl.srdPath2hashs start k ∧
      ∀ j < k, (chosenBy wl.srdPath2hashs start j : Int) <
        min change (srdTotal wl.srdPath2hashs) := by
  have hcov := covers_start hstart
  unfold srdDecrease
  dsimp only
  split_ifs with hzero
  · -- There is nothing to delete, so nothing can be chosen beforehand either.
    have htotal : srdTotal wl.srdPath2hashs = 0 := by omega
    have hnone := hcov.weigh_eq hm hstart
    have hle : chosenBy wl.srdPath2hashs start 0 ≤ srdTotal wl.srdPath2hashs := by
      rw [← chosenBy_all (m := wl.srdPath2hashs) (k := srdTotal wl.srdPath2hashs)
        fun entry he => length_le_srdTotal he]
      exact chosenBy_mono _ _ (Nat.zero_le _)
    refine ⟨0, wl, 0, rfl, ⟨start, hcov, fun path => ?_⟩, by omega, by omega, fun j hj => by omega⟩
    have hnil : hashsOf wl.srdPath2hashs path = [] := by
      by_contra hne
      obtain ⟨entry, he, rfl⟩ : ∃ entry ∈ wl.srdPath2hashs, entry.1 = path :=
        mem_of_hashsOf fun h0 => hne (List.length_eq_zero_iff.mp h0)
      have := length_le_srdTotal he
      rw [hashsOf_of_mem hm he] at hne
      exact hne (List.length_eq_zero_iff.mp (by omega))
    rw [hnil]
    rfl
  · have hfuel : srdTotal wl.srdPath2hashs + 1 ≤ 0 + (srdTotal wl.srdPath2hashs + 1) := by omega
    obtain ⟨k, hk, hge, hlow⟩ := covers_chooseLoop hm hstart (min_le_right change _) hfuel hcov rfl
      fun j hj => by omega
    obtain ⟨r, hrun, hmap, htotal⟩ := eraseChosen_spec mem [] hm hk.sorted
      (fun entry he => by
        have h := hk.ascending entry.1
        rw [idxsOf, findKey_of_mem isOrder_ltBytes hk.sorted he] at h
        exact h)
      fun entry he i hi => hk.inRange hstart (by
        rw [idxsOf, findKey_of_mem isOrder_ltBytes hk.sorted he]
        exact hi)
    rw [hk.weigh_eq hm hstart] at htotal
    refine ⟨(List.range (srdTotal r.2)).countP fun k => decide (answer k = .success),
      { wl with srdPath2hashs := r.1, srdInfoJson := dropCounts wl.srdInfoJson r.2 }, k, ?_,
      ⟨_, hk, hmap⟩, htotal, hge, hlow⟩
    change Option.map _ (eraseChosen mem (chooseLoop _ _ _ 1 start (weigh List.length start)) _ _) = _
    rw [hrun]
    rfl

/-- The call removes what was asked for exactly when some number of rounds hits the number. -/
theorem removes_exactly_iff (hm : Sorted ltBytes wl.srdPath2hashs)
    (hstart : Chosen wl.srdPath2hashs start) (hchange : 0 < change) :
    RemovesExactly mem answer wl change start ↔
      ∃ k, (chosenBy wl.srdPath2hashs start k : Int) = min change (srdTotal wl.srdPath2hashs) := by
  obtain ⟨n, wl', k, hrun, ⟨del, hcov, hmap⟩, htotal, hge, hlow⟩ :=
    srdDecrease_spec mem answer hm hstart hchange
  constructor
  · intro h
    obtain ⟨n', wl'', hrun', -, hcount⟩ := h.removes
    obtain ⟨rfl, rfl⟩ := Prod.mk.inj (Option.some.inj (hrun.symm.trans hrun'))
    exact ⟨k, by omega⟩
  · rintro ⟨j, hj⟩
    have hkj : k ≤ j := Nat.le_of_not_lt fun hlt => by
      have := hlow j hlt
      omega
    have hmono := chosenBy_mono wl.srdPath2hashs start hkj
    refine ⟨fun fuel hf => ?_, n, wl', hrun, ⟨idxsOf del, fun path => ?_⟩, by omega⟩
    · induction fuel, hf using Nat.le_induction with
      | base => rfl
      | succ fuel hf ih => rw [chooseLoop_fuel (by omega), ih]
    · exact ⟨hcov.ascending path, fun i hi => hcov.inRange hstart hi,
        fun i hi => (hcov.mem_iff path i).mpr (.inl hi), hmap path⟩

end

/-! ### Two paths -/

def twoPaths : Workload Nat :=
  { SrdInfo.emptyWorkload with
    srdPath2hashs := [(str "/a", [List.replicate 32 1, List.replicate 32 2]),
      (str "/b", [List.replicate 32 3])] }

def oneFailed : DelIndex := [(str "/a", [0])]

theorem twoPaths_sorted : Sorted ltBytes twoPaths.srdPath2hashs := by
  refine List.pairwise_cons.mpr ⟨fun q hq => ?_, List.pairwise_singleton _ _⟩
  rw [List.mem_singleton.mp hq]
  decide

theorem removes_exactly_twoPaths :
    RemovesExactly noMem (fun _ => .success) twoPaths 3 oneFailed := by
  refine (removes_exactly_iff twoPaths_sorted ⟨List.pairwise_singleton _ _, ?_, ?_⟩
    (by decide)).mpr ⟨1, by decide⟩
  · decide
  · decide

theorem removes_more_than_asked :
    ∃ wl' : Workload Nat, srdDecrease noMem (fun _ => .success) twoPaths 1 [] =
        some (2, wl') ∧ srdTotal wl'.srdPath2hashs = 1 ∧
      ¬ RemovesExactly noMem (fun _ => .success) twoPaths 1 [] := by
  refine ⟨_, rfl, by decide, fun h => ?_⟩
  obtain ⟨n, wl', hrun, -, hcount⟩ := h.removes
  cases hrun
  exact absurd hcount (by decide)

end CrustSworker.SrdDecrease
