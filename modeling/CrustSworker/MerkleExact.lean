import CrustSworker.Merkle
import CrustSworker.JsonRead
import CrustSworker.Sha256

/-!
# What the tree check accepts

`validate_merkletree_json` on a document whose nodes are well formed. The document is looked
at through the three fields of a node; a hash text decodes to the hash whose hex text it is, up
to the case of the digits. The check walks from the root through the nodes whose `links_num` is
not zero and looks at nothing else: a node with `links_num` zero is a leaf, whatever its
`links` hold.
-/

namespace CrustSworker.MerkleExact

open OrderedMap Merkle JsonParse

/-! ### Hash texts -/

def hexDigits : Bytes := str "0123456789abcdefABCDEF"

def HexText (s : Bytes) : Prop := s.length = 64 ∧ ∀ c ∈ s, c ∈ hexDigits

def lowerDigit (c : UInt8) : UInt8 := if 65 ≤ c ∧ c ≤ 70 then c + 32 else c

def Decodes (text : Bytes) (h : Hash) : Prop := hexstringSafe h.val = text.map lowerDigit

theorem charToInt_lt {c : UInt8} (hc : c ∈ hexDigits) : charToInt c < 16 := by
  have hall : (hexDigits.all fun d => decide (charToInt d < 16)) = true := by decide
  exact of_decide_eq_true (List.all_eq_true.mp hall c hc)

theorem hextable_charToInt {c : UInt8} (hc : c ∈ hexDigits) :
    hextable (charToInt c) = lowerDigit c := by
  have hall : (hexDigits.all fun d => decide (hextable (charToInt d) = lowerDigit d)) = true := by
    decide
  exact of_decide_eq_true (List.all_eq_true.mp hall c hc)

theorem hexstringSafe_hexPairs (s : Bytes) (heven : s.length % 2 = 0) (hs : ∀ c ∈ s, c ∈ hexDigits) :
    hexstringSafe (hexPairs s) = s.map lowerDigit := by
  induction s using hexPairs.induct with
  | case1 a b t ih =>
    have ha := hs a List.mem_cons_self
    have hb := hs b (List.mem_cons_of_mem _ List.mem_cons_self)
    have ha' := charToInt_lt ha
    have hb' := charToInt_lt hb
    have hval : (UInt8.ofNat (charToInt a * 16 + charToInt b)).toNat =
        charToInt a * 16 + charToInt b := UInt8.toNat_ofNat_of_lt' (by
      change _ < 256
      omega)
    have hhigh : (charToInt a * 16 + charToInt b) / 16 = charToInt a := by omega
    have hlow : (charToInt a * 16 + charToInt b) % 16 = charToInt b := by omega
    rw [hexPairs, hexstringSafe_cons, hval, hhigh, hlow, hextable_charToInt ha,
      hextable_charToInt hb, ih]
    · rfl
    · simp only [List.length_cons] at heven
      omega
    · intro c hc
      exact hs c (List.mem_cons_of_mem _ (List.mem_cons_of_mem _ hc))
  | case2 s h =>
    cases s with
    | nil => rfl
    | cons a s =>
      cases s with
      | nil => cases heven
      | cons b t => exact absurd rfl (h a b t)

theorem cStr64_of_length (mem : Mem) {s : Bytes} (h : s.length = 64) : cStr64 mem s = s := by
  have hle : 64 ≤ (s ++ [0]).length := by
    rw [List.length_append, h]
    decide
  rw [cStr64, mem.read_of_le hle, ← h, List.take_left]

theorem decodes_iff (mem : Mem) {s : Bytes} (hs : HexText s) (h : Hash) :
    Decodes s h ↔ hexHash mem s = h := by
  have hpairs : hexstringSafe (hexPairs s) = s.map lowerDigit :=
    hexstringSafe_hexPairs s (by rw [hs.1]) hs.2
  have hval : (hexHash mem s).val = hexPairs s := congrArg hexPairs (cStr64_of_length mem hs.1)
  rw [Decodes, ← hpairs, Subtype.ext_iff, hval]
  constructor
  · intro heq
    have hdec := congrArg hexPairs heq
    rw [hexPairs_hexstringSafe, hexPairs_hexstringSafe] at hdec
    exact hdec.symm
  · intro heq
    rw [heq]

theorem hexHash_hexstringSafe (mem : Mem) (h : Hash) : hexHash mem (hexstringSafe h.val) = h := by
  refine Subtype.ext ?_
  have hlen : (hexstringSafe h.val).length = 64 := by rw [length_hexstringSafe, h.property]
  exact (congrArg hexPairs (cStr64_of_length mem hlen)).trans (hexPairs_hexstringSafe h.val)

/-! ### Documents -/

def linksNum (n : JSON) : Int := (n.get mtLinksNum).toInt

def hashText (n : JSON) : Bytes := (n.get mtHash).toStr

def children (n : JSON) : List JSON :=
  match n.get mtLinks with
  | .array l => l
  | _ => []

/-- Every node is an object with an integer `links_num`, an array `links` or none, and a hash of
64 hex digits. -/
inductive WellFormed : JSON → Prop
  | node {m : List (Bytes × JSON)} {k : Int} (hnum : (JSON.object m).get mtLinksNum = .integral k)
      (hlinks : (JSON.object m).hasKey mtLinks = false ∨
        ∃ l, (JSON.object m).get mtLinks = .array l)
      (hhash : HexText (hashText (.object m)))
      (hchildren : ∀ c ∈ children (.object m), WellFormed c) : WellFormed (.object m)

inductive Node (root : JSON) : JSON → Prop
  | root : Node root root
  | child {n c : JSON} : Node root n → c ∈ children n → Node root c

/-- The nodes on the ways that lead through nodes with a non-zero `links_num`. -/
inductive Reached (root : JSON) : JSON → Prop
  | root : Reached root root
  | child {n c : JSON} : Reached root n → linksNum n ≠ 0 → c ∈ children n → Reached root c

theorem Reached.of_child {j c n : JSON} (hne : linksNum j ≠ 0) (hc : c ∈ children j)
    (h : Reached c n) : Reached j n := by
  induction h with
  | root => exact .child .root hne hc
  | child _ hm hd ih => exact .child ih hm hd

theorem Reached.split {j n : JSON} (h : Reached j n) :
    n = j ∨ (linksNum j ≠ 0 ∧ ∃ c ∈ children j, Reached c n) := by
  induction h with
  | root => exact .inl rfl
  | child _ hm hd ih =>
    rcases ih with rfl | ⟨hj, c, hc, hreach⟩
    · exact .inr ⟨hm, _, hd, .root⟩
    · exact .inr ⟨hj, c, hc, .child hreach hm hd⟩

theorem Node.of_child {j c n : JSON} (hc : c ∈ children j) (h : Node c n) : Node j n := by
  induction h with
  | root => exact .child .root hc
  | child _ hd ih => exact .child ih hd

section
variable (sha256 : Bytes → Hash)

def HashesChildren (n : JSON) : Prop :=
  (children n).length = linksNum n ∧
    ∃ hashs : List Hash, List.Forall₂ (fun c h => Decodes (hashText c) h) (children n) hashs ∧
      Decodes (hashText n) (sha256 (hashs.flatMap Subtype.val))

def IsMerkle (j : JSON) : Prop :=
  ∀ n, Reached j n → linksNum n ≠ 0 → HashesChildren sha256 n

theorem isMerkle_iff (j : JSON) :
    IsMerkle sha256 j ↔
      (linksNum j ≠ 0 → HashesChildren sha256 j ∧ ∀ c ∈ children j, IsMerkle sha256 c) := by
  constructor
  · intro h hne
    exact ⟨h j .root hne, fun c hc n hn => h n (hn.of_child hne hc)⟩
  · intro h n hn
    rcases hn.split with rfl | ⟨hj, c, hc, hreach⟩
    · exact fun hne => (h hne).1
    · exact (h hj).2 c hc n hreach

end

/-! ### The tree the check walks -/

theorem itemTrees_eq (l : List JSON) : itemTrees l = l.map treeOf := by
  induction l with
  | nil => rfl
  | cons j l ih => rw [itemTrees, ih, List.map_cons]

theorem fieldLinks_eq (m : List (Bytes × JSON)) :
    fieldLinks m = (children (.object m)).map treeOf := by
  induction m with
  | nil => rfl
  | cons p m ih =>
    obtain ⟨k, v⟩ := p
    by_cases hk : mtLinks = k
    · have hget : (JSON.object ((k, v) :: m)).get mtLinks = v := by
        rw [JSON.get, findKey, if_pos hk]
        rfl
      rw [fieldLinks, if_pos hk, children, hget]
      cases v with
      | array l => exact itemTrees_eq l
      | _ => rfl
    · have hget : (JSON.object ((k, v) :: m)).get mtLinks = (JSON.object m).get mtLinks := by
        rw [JSON.get, JSON.get, findKey, if_neg hk]
      rw [fieldLinks, if_neg hk, ih, children, children, hget]

theorem linksNum_infoOf (j : JSON) : (infoOf j).linksNum = linksNum j := rfl

theorem linksSize_infoOf (j : JSON) : (infoOf j).linksSize = (j.get mtLinks).size := rfl

theorem hash_infoOf (j : JSON) : (infoOf j).hash = hashText j := rfl

theorem info_treeOf (j : JSON) : (treeOf j).info = infoOf j := by
  cases j with
  | object m => rw [treeOf]; rfl
  | _ => rfl

theorem treeOf_of_length {m : List (Bytes × JSON)}
    (h : ((children (.object m)).length : Int) = linksNum (.object m)) :
    treeOf (.object m) = .node (infoOf (.object m)) ((children (.object m)).map treeOf) := by
  have hnum : (infoOf (.object m)).linksNum.toNat = ((children (.object m)).map treeOf).length := by
    rw [linksNum_infoOf, ← h, List.length_map]
    rfl
  rw [treeOf, fieldLinks_eq, hnum, List.takeD_eq_take _ le_rfl, List.take_length]

/-! ### The check -/

section
variable (sha256 : Bytes → Hash) (mem : Mem) (alloc : Pos → MerkleAlloc)

def Served : Prop := ∀ q, alloc q = ⟨true, true, true⟩

variable {sha256 mem alloc}

theorem validateLinks_spec (hserved : Served alloc) {P : JSON → Prop} {l : List JSON}
    (h : ∀ c ∈ l, ∀ p, validateMerkletree sha256 mem alloc p (treeOf c) = .success ↔ P c)
    (p : Pos) (i : Nat) :
    ((∀ c ∈ l, P c) → validateLinks sha256 mem alloc p i (l.map treeOf) =
      some (l.flatMap fun c => (hexHash mem (hashText c)).val)) ∧
    ((¬ ∀ c ∈ l, P c) → validateLinks sha256 mem alloc p i (l.map treeOf) = none) := by
  induction l generalizing i with
  | nil => exact ⟨fun _ => rfl, fun hn => absurd (fun c hc => absurd hc List.not_mem_nil) hn⟩
  | cons c l ih =>
    have hc := h c List.mem_cons_self (i :: p)
    have htail := ih (fun d hd => h d (List.mem_cons_of_mem _ hd)) (i + 1)
    have halloc : (alloc (i :: p)).child = true := by rw [hserved]
    have hhash : (treeOf c).info.hash = hashText c := by rw [info_treeOf, hash_infoOf]
    constructor
    · intro hall
      have hfirst := hc.mpr (hall c List.mem_cons_self)
      have hrest := htail.1 fun d hd => hall d (List.mem_cons_of_mem _ hd)
      rw [List.map_cons, validateLinks, if_neg (not_not.mpr hfirst), if_neg (not_not.mpr halloc),
        hrest, hhash]
      rfl
    · intro hnot
      rw [List.map_cons, validateLinks]
      by_cases hfirst : P c
      · have hrest : ¬ ∀ d ∈ l, P d := by
          intro hall
          refine hnot fun d hd => ?_
          rcases List.mem_cons.mp hd with rfl | hd
          · exact hfirst
          · exact hall d hd
        rw [if_neg (not_not.mpr (hc.mpr hfirst)), if_neg (not_not.mpr halloc), htail.2 hrest]
      · rw [if_pos fun hs => hfirst (hc.mp hs)]

theorem length_flatMap_hash {α : Type} (f : α → Hash) (l : List α) :
    (l.flatMap fun c => (f c).val).length = l.length * hashLength := by
  induction l with
  | nil => rfl
  | cons c l ih =>
    rw [List.flatMap_cons, List.length_append, ih, (f c).property, List.length_cons, hashLength]
    omega

theorem forall₂_decodes_iff (mem : Mem) {l : List JSON} (hl : ∀ c ∈ l, HexText (hashText c))
    (hashs : List Hash) :
    List.Forall₂ (fun c h => Decodes (hashText c) h) l hashs ↔
      l.map (fun c => hexHash mem (hashText c)) = hashs := by
  induction l generalizing hashs with
  | nil => rw [List.forall₂_nil_left_iff, List.map_nil, eq_comm]
  | cons c l ih =>
    have hc := decodes_iff mem (hl c List.mem_cons_self)
    have htail := ih fun d hd => hl d (List.mem_cons_of_mem _ hd)
    rw [List.forall₂_cons_left_iff, List.map_cons]
    constructor
    · rintro ⟨h, hashs', hfirst, hrest, rfl⟩
      rw [(hc h).mp hfirst, (htail hashs').mp hrest]
    · rintro rfl
      exact ⟨_, _, (hc _).mpr rfl, (htail _).mpr rfl, rfl⟩

theorem WellFormed.hexText {j : JSON} (h : WellFormed j) : HexText (hashText j) := by
  cases h with
  | node _ _ hhash _ => exact hhash

theorem WellFormed.child {j c : JSON} (h : WellFormed j) (hc : c ∈ children j) : WellFormed c := by
  cases h with
  | node _ _ _ hchildren => exact hchildren c hc

theorem hashesChildren_iff (mem : Mem) {j : JSON} (hwf : WellFormed j) :
    HashesChildren sha256 j ↔ (children j).length = linksNum j ∧
      hexHash mem (hashText j) =
        sha256 ((children j).flatMap fun c => (hexHash mem (hashText c)).val) := by
  have hl : ∀ c ∈ children j, HexText (hashText c) := fun c hc => (hwf.child hc).hexText
  have hflat : ((children j).map fun c => hexHash mem (hashText c)).flatMap Subtype.val =
      (children j).flatMap fun c => (hexHash mem (hashText c)).val := List.flatMap_map ..
  refine and_congr_right fun _ => ⟨?_, ?_⟩
  · rintro ⟨hashs, hdec, hroot⟩
    obtain rfl := (forall₂_decodes_iff mem hl hashs).mp hdec
    rw [(decodes_iff mem hwf.hexText _).mp hroot, hflat]
  · intro hroot
    refine ⟨_, (forall₂_decodes_iff mem hl _).mpr rfl, ?_⟩
    rw [decodes_iff mem hwf.hexText, hroot, hflat]

theorem linksSize_eq {m : List (Bytes × JSON)}
    (hlinks : (JSON.object m).hasKey mtLinks = false ∨ ∃ l, (JSON.object m).get mtLinks = .array l) :
    ((JSON.object m).get mtLinks).size = (children (.object m)).length ∨
      ((JSON.object m).get mtLinks).size = -1 ∧ children (.object m) = [] := by
  rcases hlinks with habsent | ⟨l, hl⟩
  · refine .inr ?_
    have hfind : findKey mtLinks m = none := by simpa [JSON.hasKey] using habsent
    have hnull : (JSON.object m).get mtLinks = .null := by
      rw [JSON.get, hfind]
      rfl
    rw [children, hnull]
    exact ⟨rfl, rfl⟩
  · refine .inl ?_
    rw [children, hl]
    rfl

theorem validate_of_length {m : List (Bytes × JSON)} (p : Pos) (hserved : Served alloc)
    (hne : linksNum (.object m) ≠ 0)
    (hsize : linksNum (.object m) = ((JSON.object m).get mtLinks).size)
    (hlen : (children (.object m)).length = linksNum (.object m))
    (hheap : (children (.object m)).length * hashLength ≤ heapMaxSize) :
    validateMerkletree sha256 mem alloc p (treeOf (.object m)) =
      match validateLinks sha256 mem alloc p 0 ((children (.object m)).map treeOf) with
      | none => .invalidMerkletree
      | some childrenHashs =>
        if hexHash mem (hashText (.object m)) ≠ sgxSha256Msg sha256 childrenHashs then
          .invalidMerkletree
        else .success := by
  have hbuffer : encMalloc (alloc p).buffer (sizeT (linksNum (.object m) * hashLength)) = true := by
    have hsizeT : sizeT (linksNum (.object m) * hashLength) =
        (children (.object m)).length * hashLength := by
      rw [← hlen, sizeT, ← Nat.cast_mul]
      have hlt : (children (.object m)).length * hashLength < 2 ^ 64 :=
        lt_of_le_of_lt hheap (by decide)
      omega
    rw [encMalloc, hserved, hsizeT, decide_eq_true hheap]
    rfl
  rw [treeOf_of_length hlen, validateMerkletree, linksNum_infoOf, linksSize_infoOf, hash_infoOf,
    if_neg hne, if_neg (not_not.mpr hsize), if_neg (not_not.mpr hbuffer)]
  have hparent : (alloc p).parent = true := by rw [hserved]
  cases validateLinks sha256 mem alloc p 0 ((children (.object m)).map treeOf) with
  | none => rfl
  | some childrenHashs =>
    dsimp only
    rw [if_neg (not_not.mpr hparent)]

/-- A node with another number of children than `links_num` says. Where `links` is missing and
`links_num` is -1 the sizes agree, but no buffer for -1 hashes can be had. -/
theorem validate_of_length_ne {m : List (Bytes × JSON)} (p : Pos)
    (hlinks : (JSON.object m).hasKey mtLinks = false ∨ ∃ l, (JSON.object m).get mtLinks = .array l)
    (hne : linksNum (.object m) ≠ 0) (hlen : (children (.object m)).length ≠ linksNum (.object m)) :
    validateMerkletree sha256 mem alloc p (treeOf (.object m)) ≠ .success := by
  rw [treeOf, validateMerkletree, linksNum_infoOf, linksSize_infoOf, if_neg hne]
  by_cases hsize : linksNum (.object m) = ((JSON.object m).get mtLinks).size
  · rcases linksSize_eq hlinks with harray | ⟨habsent, -⟩
    · exact absurd (harray.symm.trans hsize.symm) hlen
    · have hbuffer : ¬ encMalloc (alloc p).buffer (sizeT (linksNum (.object m) * hashLength)) = true := by
        rw [hsize, habsent]
        intro h
        exact absurd (encMalloc_le h) (by decide)
      rw [if_neg (not_not.mpr hsize), if_pos hbuffer]
      exact CrustStatus.noConfusion
  · rw [if_pos hsize]
    exact CrustStatus.noConfusion

theorem validate_success_iff {j : JSON} (hwf : WellFormed j) (hserved : Served alloc)
    (hheap : ∀ n, Node j n → (children n).length * hashLength ≤ heapMaxSize) (p : Pos) :
    validateMerkletree sha256 mem alloc p (treeOf j) = .success ↔ IsMerkle sha256 j := by
  induction hwf generalizing p with
  | @node m k hnum hlinks hhash hchildren ih =>
    have hwf : WellFormed (.object m) := .node hnum hlinks hhash hchildren
    rw [isMerkle_iff]
    by_cases hzero : linksNum (.object m) = 0
    · rw [treeOf, validateMerkletree, linksNum_infoOf, if_pos hzero]
      exact ⟨fun _ hne => absurd hzero hne, fun _ => rfl⟩
    by_cases hlen : ((children (.object m)).length : Int) = linksNum (.object m)
    · have hsize : linksNum (.object m) = ((JSON.object m).get mtLinks).size := by
        rcases linksSize_eq hlinks with harray | ⟨-, hnil⟩
        · rw [harray, hlen]
        · rw [hnil] at hlen
          exact absurd hlen.symm hzero
      have hroot := hheap _ .root
      have hlinks' := validateLinks_spec hserved
        (fun c hc => ih c hc fun n hn => hheap n (hn.of_child hc)) p 0
      rw [validate_of_length p hserved hzero hsize hlen hroot]
      by_cases hall : ∀ c ∈ children (.object m), IsMerkle sha256 c
      · have hcat : ((children (.object m)).flatMap fun c =>
            (hexHash mem (hashText c)).val).length ≤ heapMaxSize := by
          rw [length_flatMap_hash]
          exact hroot
        rw [hlinks'.1 hall]
        dsimp only
        rw [sgxSha256Msg_of_le sha256 hcat, hashesChildren_iff mem hwf]
        by_cases hroot' : hexHash mem (hashText (.object m)) = sha256 ((children (.object m)).flatMap
            fun c => (hexHash mem (hashText c)).val)
        · rw [if_neg (not_not.mpr hroot')]
          exact ⟨fun _ _ => ⟨⟨hlen, hroot'⟩, hall⟩, fun _ => rfl⟩
        · rw [if_pos hroot']
          exact ⟨fun h => CrustStatus.noConfusion h, fun h => absurd (h hzero).1.2 hroot'⟩
      · rw [hlinks'.2 hall]
        exact ⟨fun h => CrustStatus.noConfusion h, fun h => absurd (h hzero).2 hall⟩
    · have hnot : validateMerkletree sha256 mem alloc p (treeOf (.object m)) ≠ .success :=
        validate_of_length_ne p hlinks hzero hlen
      exact ⟨fun h => absurd h hnot, fun h => absurd (h hzero).1.1 hlen⟩

theorem reached_of_node {j : JSON} (hleaf : ∀ n, Node j n → linksNum n = 0 → children n = [])
    {n : JSON} (h : Node j n) : Reached j n := by
  induction h with
  | root => exact .root
  | child hn hc ih =>
    refine .child ih (fun hzero => ?_) hc
    rw [hleaf _ hn hzero] at hc
    exact absurd hc List.not_mem_nil

theorem node_of_reached {j n : JSON} (h : Reached j n) : Node j n := by
  induction h with
  | root => exact .root
  | child _ _ hc ih => exact .child ih hc

end

/-- The check accepts a document exactly when every node it comes to through nodes with a non-zero
`links_num` has the hash of its children; where the leaves have no `links` these are all nodes. -/
theorem accepts_iff_merkle (sha256 : Bytes → Hash) (mem : Mem) (alloc : Pos → MerkleAlloc) (j : JSON)
    (hwf : WellFormed j) (hserved : Served alloc)
    (hheap : ∀ n, Node j n → (children n).length * hashLength ≤ heapMaxSize) :
    (validateMerkletree sha256 mem alloc [] (treeOf j) = .success ↔
      ∀ n, Reached j n → linksNum n ≠ 0 → HashesChildren sha256 n) ∧
    ((∀ n, Node j n → linksNum n = 0 → children n = []) →
      (validateMerkletree sha256 mem alloc [] (treeOf j) = .success ↔
        ∀ n, Node j n → linksNum n ≠ 0 → HashesChildren sha256 n)) := by
  have hiff : validateMerkletree sha256 mem alloc [] (treeOf j) = .success ↔ IsMerkle sha256 j :=
    validate_success_iff hwf hserved hheap []
  refine ⟨hiff, fun hleaf => hiff.trans ⟨fun h n hn => ?_, fun h n hn => ?_⟩⟩
  · exact h n (reached_of_node hleaf hn)
  · exact h n (node_of_reached hn)

def zeroText : Bytes := List.replicate 64 48

def textNode (hash : Bytes) (linksNum : Int) (links : List JSON) : JSON :=
  .object [(mtHash, .string hash), (mtLinks, .array links), (mtLinksNum, .integral linksNum)]

def servedAlloc : Pos → MerkleAlloc := fun _ => ⟨true, true, true⟩

theorem hexText_zeroText : HexText zeroText := by
  refine ⟨List.length_replicate, fun c hc => ?_⟩
  rw [List.eq_of_mem_replicate hc]
  decide

theorem wellFormed_textNode {hash : Bytes} {k : Int} {l : List JSON}
    (hhash : HexText (hashText (textNode hash k l))) (h : ∀ c ∈ l, WellFormed c) :
    WellFormed (textNode hash k l) :=
  .node (k := k) rfl (.inr ⟨l, rfl⟩) hhash h

theorem node_textNode {hash hash' : Bytes} {k k' : Int} {n : JSON}
    (h : Node (textNode hash k [textNode hash' k' []]) n) :
    n = textNode hash k [textNode hash' k' []] ∨ n = textNode hash' k' [] := by
  induction h with
  | root => exact .inl rfl
  | child _ hc ih =>
    rcases ih with rfl | rfl
    · exact .inr (List.mem_singleton.mp hc)
    · exact absurd hc List.not_mem_nil

theorem heap_textNode {hash hash' : Bytes} {k k' : Int} (n : JSON)
    (h : Node (textNode hash k [textNode hash' k' []]) n) :
    (children n).length * hashLength ≤ heapMaxSize := by
  rcases node_textNode h with rfl | rfl
  · change 1 * hashLength ≤ heapMaxSize
    decide
  · change 0 * hashLength ≤ heapMaxSize
    decide

def oneLeaf : JSON :=
  textNode (str "66687aadf862bd776c8fc18b8e9f8e20089714856ee233b3902a591d0d5f2925") 1
    [textNode zeroText 0 []]

theorem accepts_iff_merkle_oneLeaf :
    validateMerkletree Sha256.sha256 ⟨fun _ _ => 0⟩ servedAlloc [] (treeOf oneLeaf) = .success ∧
      ∀ n, Node oneLeaf n → linksNum n ≠ 0 → HashesChildren Sha256.sha256 n := by
  have hwf : WellFormed oneLeaf := by
    refine wellFormed_textNode ⟨by decide, by decide +kernel⟩ fun c hc => ?_
    obtain rfl := List.mem_singleton.mp hc
    exact wellFormed_textNode hexText_zeroText fun d hd => absurd hd List.not_mem_nil
  have hleaf : ∀ n, Node oneLeaf n → linksNum n = 0 → children n = [] := by
    intro n hn hzero
    rcases node_textNode hn with rfl | rfl
    · exact absurd hzero (by decide)
    · rfl
  have haccepted : validateMerkletree Sha256.sha256 ⟨fun _ _ => 0⟩ servedAlloc [] (treeOf oneLeaf) =
      .success := by decide +kernel
  exact ⟨haccepted, ((accepts_iff_merkle Sha256.sha256 ⟨fun _ _ => 0⟩ servedAlloc oneLeaf hwf
    (fun _ => rfl) heap_textNode).2 hleaf).mp haccepted⟩

def hidingLeaf : JSON := textNode zeroText 0 [textNode zeroText 1 []]

theorem hiding_leaf_accepted :
    ¬ ∀ (sha256 : Bytes → Hash) (mem : Mem) (alloc : Pos → MerkleAlloc) (j : JSON),
      WellFormed j → Served alloc →
      (∀ n, Node j n → (children n).length * hashLength ≤ heapMaxSize) →
      (validateMerkletree sha256 mem alloc [] (treeOf j) = .success ↔
        ∀ n, Node j n → linksNum n ≠ 0 → HashesChildren sha256 n) := by
  intro hclaim
  have hwf : WellFormed hidingLeaf := by
    refine wellFormed_textNode hexText_zeroText fun c hc => ?_
    obtain rfl := List.mem_singleton.mp hc
    exact wellFormed_textNode hexText_zeroText fun d hd => absurd hd List.not_mem_nil
  have haccepted : validateMerkletree Sha256.sha256 ⟨fun _ _ => 0⟩ servedAlloc [] (treeOf hidingLeaf) =
      .success := rfl
  have hall := (hclaim Sha256.sha256 ⟨fun _ _ => 0⟩ servedAlloc hidingLeaf hwf
    (fun _ => rfl) heap_textNode).mp haccepted
  have hnode : Node hidingLeaf (textNode zeroText 1 []) := .child .root (List.mem_singleton.mpr rfl)
  have hlen := (hall _ hnode (by decide)).1
  exact absurd hlen (by decide)

end CrustSworker.MerkleExact
