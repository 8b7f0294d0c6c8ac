import CrustSworker.EntryText
import CrustSworker.MerkleExact
import CrustSworker.ValidatorSound
import Mathlib.Algebra.BigOperators.Ring.Finset
import Mathlib.Algebra.Order.BigOperators.Group.List

/-!
# The sealed tree

`_storage_seal_file` writes the tree of the sealed file as text while it walks the tree of the
plain one. With no leaf left out that text is the text of a tree of blocks: the shape that the walk
has seen, the hash and size of the sealed block at each leaf, and above them the hash of the hashes
and the sum of the sizes. The loader reads the text back, the tree check accepts what it reads, and
the leaf tag the validator looks for stands in front of the hash of each block and nowhere else, in
the order of the blocks. A hash whose hex text found no buffer stands as an empty text in it, and
links under a node that says it has none are not in it.
-/

namespace CrustSworker

open Merkle Seal Validator ValidatorSound TextSearch JsonParse MerkleExact

/-- A block for each leaf, and at each node the text that stands for its hash. -/
inductive SealedTree where
  | leaf (block : Block) (hashText : Bytes)
  | node (hashText : Bytes) (links : List SealedTree)

inductive Shape where
  | node (links : List Shape)

namespace Merkle

mutual

def shape : Tree → Shape
  | .node _ links => .node (shapes links)

def shapes : List Tree → List Shape
  | [] => []
  | t :: ts => shape t :: shapes ts

end

theorem shapes_eq (ts : List Tree) : shapes ts = ts.map shape := by
  induction ts with
  | nil => rfl
  | cons t ts ih => rw [shapes, ih, List.map_cons]

theorem length_shapes (ts : List Tree) : (shapes ts).length = ts.length := by
  rw [shapes_eq, List.length_map]

/-! ### The shape of a document -/

mutual

/-- By the links that stand in the document, whatever its nodes say of their number. -/
def documentShape : JSON → Shape
  | .object m => .node (fieldShapes m)
  | _ => .node []

def fieldShapes : List (Bytes × JSON) → List Shape
  | [] => []
  | (k, v) :: m => if mtLinks = k then linkShapes v else fieldShapes m

def linkShapes : JSON → List Shape
  | .array l => itemShapes l
  | _ => []

def itemShapes : List JSON → List Shape
  | [] => []
  | j :: l => documentShape j :: itemShapes l

end

theorem itemShapes_eq (l : List JSON) : itemShapes l = l.map documentShape := by
  induction l with
  | nil => rfl
  | cons j l ih => rw [itemShapes, ih, List.map_cons]

theorem fieldShapes_eq (m : List (Bytes × JSON)) :
    fieldShapes m = (children (.object m)).map documentShape := by
  induction m with
  | nil => rfl
  | cons p m ih =>
    obtain ⟨k, v⟩ := p
    by_cases hk : mtLinks = k
    · have hget : (JSON.object ((k, v) :: m)).get mtLinks = v := by
        rw [JSON.get, OrderedMap.findKey, if_pos hk]
        rfl
      rw [fieldShapes, if_pos hk, children, hget]
      cases v with
      | array l => exact itemShapes_eq l
      | _ => rfl
    · have hget : (JSON.object ((k, v) :: m)).get mtLinks = (JSON.object m).get mtLinks := by
        rw [JSON.get, JSON.get, OrderedMap.findKey, if_neg hk]
      rw [fieldShapes, if_neg hk, ih, children, children, hget]

theorem documentShape_object (m : List (Bytes × JSON)) :
    documentShape (.object m) = .node ((children (.object m)).map documentShape) := by
  rw [documentShape, fieldShapes_eq]

def NoHiddenLinks (j : JSON) : Prop := ∀ n, Reached j n → linksNum n = 0 → children n = []

theorem noHiddenLinks_iff {j : JSON} (hne : linksNum j ≠ 0) :
    NoHiddenLinks j ↔ ∀ c ∈ children j, NoHiddenLinks c := by
  constructor
  · exact fun h c hc n hn => h n (hn.of_child hne hc)
  · intro h n hn hzero
    rcases hn.split with rfl | ⟨-, c, hc, hreach⟩
    · exact absurd hzero hne
    · exact h c hc n hreach hzero

/-! ### The nodes of a tree -/

mutual

def nodes (p : Pos) : Tree → List Pos
  | .node _ links => p :: nodesOf p 0 links

def nodesOf (p : Pos) (i : Nat) : List Tree → List Pos
  | [] => []
  | t :: ts => nodes (i :: p) t ++ nodesOf p (i + 1) ts

end

end Merkle

namespace SealedTree

mutual

def shape : SealedTree → Shape
  | .leaf _ _ => .node []
  | .node _ links => .node (shapes links)

def shapes : List SealedTree → List Shape
  | [] => []
  | t :: ts => shape t :: shapes ts

end

mutual

def blocks : SealedTree → List Block
  | .leaf b _ => [b]
  | .node _ links => blocksOf links

def blocksOf : List SealedTree → List Block
  | [] => []
  | t :: ts => blocks t ++ blocksOf ts

end

def sealedSize (bs : List Block) : Nat := (bs.map fun b => b.sealed.length).sum

def rootText : SealedTree → Bytes
  | .leaf _ hashText => hashText
  | .node hashText _ => hashText

mutual

def text : SealedTree → Bytes
  | .leaf b hashText => leafHead ++ decInt 0 ++ str "," ++ nodeTail hashText b.sealed.length
  | .node hashText links =>
    str "\x7b\"" ++ mtLinks ++ str "\": [" ++ Metadata.commaSep (texts links) ++ str "],\"" ++ mtLinksNum
      ++ str "\":" ++ decInt links.length ++ str "," ++
      nodeTail hashText (sealedSize (blocksOf links))

def texts : List SealedTree → List Bytes
  | [] => []
  | t :: ts => text t :: texts ts

end

mutual

def json : SealedTree → JSON
  | .leaf b hashText =>
    .object [(mtHash, .string hashText), (mtLinksNum, .integral 0),
      (mtSize, .integral b.sealed.length)]
  | .node hashText links =>
    .object [(mtHash, .string hashText), (mtLinks, .array (jsons links)),
      (mtLinksNum, .integral links.length), (mtSize, .integral (sealedSize (blocksOf links)))]

def jsons : List SealedTree → List JSON
  | [] => []
  | t :: ts => json t :: jsons ts

end

section
variable (sha256 : Bytes → Hash)

def blockHash (b : Block) : Hash := sgxSha256Msg sha256 b.sealed

mutual

def hash : SealedTree → Hash
  | .leaf b _ => blockHash sha256 b
  | .node _ links => sgxSha256Msg sha256 (hashs links)

def hashs : List SealedTree → Bytes
  | [] => []
  | t :: ts => (hash t).val ++ hashs ts

end

inductive Proper : SealedTree → Prop
  | leaf (b : Block) : Proper (.leaf b (hexstringSafe (blockHash sha256 b).val))
  | node {ts : List SealedTree} (hne : ts ≠ []) (h : ∀ t ∈ ts, Proper t) :
      Proper (.node (hexstringSafe (sgxSha256Msg sha256 (hashs sha256 ts)).val) ts)

end

def HexOrNone (s : Bytes) : Prop := s = [] ∨ ∃ h : Hash, s = hexstringSafe h.val

inductive Loose : SealedTree → Prop
  | leaf (b : Block) {s : Bytes} (hs : HexOrNone s) : Loose (.leaf b s)
  | node {s : Bytes} {ts : List SealedTree} (hs : HexOrNone s) (h : ∀ t ∈ ts, Loose t) :
      Loose (.node s ts)

inductive Full : SealedTree → Prop
  | leaf (b : Block) {s : Bytes} (hs : s ≠ []) : Full (.leaf b s)
  | node {s : Bytes} {ts : List SealedTree} (hs : s ≠ []) (h : ∀ t ∈ ts, Full t) : Full (.node s ts)

/-- Induction over the tree, with the claim for all links of a node. -/
@[elab_as_elim]
theorem links_induction {P : SealedTree → Prop} (leaf : ∀ b s, P (.leaf b s))
    (node : ∀ s ts, (∀ t ∈ ts, P t) → P (.node s ts)) (s : SealedTree) : P s :=
  @SealedTree.rec P (fun ts => ∀ t ∈ ts, P t) leaf node
    (fun _ ht => absurd ht List.not_mem_nil)
    (fun _ _ hu hus => List.forall_mem_cons.mpr ⟨hu, hus⟩) s

/-! ### Lists of trees -/

theorem shapes_eq (ts : List SealedTree) : shapes ts = ts.map shape := by
  induction ts with
  | nil => rfl
  | cons t ts ih => rw [shapes, ih, List.map_cons]

theorem length_shapes (ts : List SealedTree) : (shapes ts).length = ts.length := by
  rw [shapes_eq, List.length_map]

theorem blocksOf_eq (ts : List SealedTree) : blocksOf ts = ts.flatMap blocks := by
  induction ts with
  | nil => rfl
  | cons t ts ih => rw [blocksOf, ih, List.flatMap_cons]

theorem sealedSize_append (as bs : List Block) :
    sealedSize (as ++ bs) = sealedSize as + sealedSize bs := by
  rw [sealedSize, List.map_append, List.sum_append]
  rfl

section
variable {sha256 : Bytes → Hash}

theorem hashs_eq (ts : List SealedTree) :
    hashs sha256 ts = ts.flatMap fun t => (hash sha256 t).val := by
  induction ts with
  | nil => rfl
  | cons t ts ih => rw [hashs, ih, List.flatMap_cons]

theorem Proper.rootText_eq {s : SealedTree} (h : s.Proper sha256) :
    s.rootText = hexstringSafe (s.hash sha256).val := by
  cases h with
  | leaf b => rfl
  | node hne h => rfl

theorem Proper.loose {s : SealedTree} (h : s.Proper sha256) : s.Loose := by
  induction h with
  | leaf b => exact .leaf b (.inr ⟨_, rfl⟩)
  | node hne _ ih => exact .node (.inr ⟨_, rfl⟩) ih

theorem hexstringSafe_ne_nil (h : Hash) : hexstringSafe h.val ≠ [] := by
  refine List.ne_nil_of_length_pos ?_
  rw [length_hexstringSafe, h.property]
  decide

theorem Proper.full {s : SealedTree} (h : s.Proper sha256) : s.Full := by
  induction h with
  | leaf b => exact .leaf b (hexstringSafe_ne_nil _)
  | node hne _ ih => exact .node (hexstringSafe_ne_nil _) ih

end

theorem texts_eq (ts : List SealedTree) : texts ts = ts.map text := by
  induction ts with
  | nil => rfl
  | cons t ts ih => rw [texts, ih, List.map_cons]

theorem jsons_eq (ts : List SealedTree) : jsons ts = ts.map json := by
  induction ts with
  | nil => rfl
  | cons t ts ih => rw [jsons, ih, List.map_cons]

theorem Loose.rootText {s : SealedTree} (h : s.Loose) : HexOrNone s.rootText := by
  cases h with
  | leaf b hs => exact hs
  | node hs h => exact hs

end SealedTree

/-! ### The walk builds a sealed tree -/

namespace Merkle

inductive Counted : Tree → Prop
  | leaf {n : NodeInfo} (hzero : n.linksNum = 0) : Counted (.node n [])
  | node {n : NodeInfo} {links : List Tree} (hne : n.linksNum ≠ 0)
      (hlen : (links.length : Int) = n.linksNum) (hlinks : ∀ t ∈ links, Counted t) :
      Counted (.node n links)

section
variable {sha256 : Bytes → Hash} {mem : Mem} {alloc : Pos → MerkleAlloc}

theorem validateLinks_all {p : Pos} {i : Nat} {ts : List Tree} {out : Bytes}
    (h : validateLinks sha256 mem alloc p i ts = some out) :
    ∀ t ∈ ts, ∃ q, validateMerkletree sha256 mem alloc q t = .success := by
  induction ts generalizing i out with
  | nil => exact fun t ht => absurd ht List.not_mem_nil
  | cons t ts ih =>
    rw [validateLinks] at h
    split_ifs at h with hfirst
    cases hrest : validateLinks sha256 mem alloc p (i + 1) ts with
    | none =>
      rw [hrest] at h
      cases h
    | some hashs =>
      intro u hu
      rcases List.mem_cons.mp hu with rfl | hu
      · exact ⟨_, not_not.mp hfirst⟩
      · exact ih hrest u hu

theorem counted_of_accepted {j : JSON} (hwf : WellFormed j) {p : Pos}
    (h : validateMerkletree sha256 mem alloc p (treeOf j) = .success) : Counted (treeOf j) := by
  induction hwf generalizing p with
  | @node m k hnum hlinks hhash hchildren ih =>
    by_cases hzero : linksNum (.object m) = 0
    · have hnil : treeOf (.object m) = .node (infoOf (.object m)) [] := by
        rw [treeOf, linksNum_infoOf, hzero]
        rfl
      rw [hnil]
      exact .leaf hzero
    · have hlen : ((children (.object m)).length : Int) = linksNum (.object m) := by
        by_contra hne
        exact validate_of_length_ne p hlinks hzero hne h
      rw [treeOf_of_length hlen] at h ⊢
      rw [validateMerkletree, linksNum_infoOf, if_neg hzero] at h
      cases hall : validateLinks sha256 mem alloc p 0 ((children (.object m)).map treeOf) with
      | none =>
        rw [hall] at h
        split_ifs at h
      | some out =>
        refine .node hzero (by rw [List.length_map]; exact hlen) fun t ht => ?_
        obtain ⟨c, hc, rfl⟩ := List.mem_map.mp ht
        obtain ⟨q, hq⟩ := validateLinks_all hall _ ht
        exact ih c hc hq

theorem shape_treeOf_eq_iff {j : JSON} (hwf : WellFormed j) {p : Pos}
    (h : validateMerkletree sha256 mem alloc p (treeOf j) = .success) :
    shape (treeOf j) = documentShape j ↔ NoHiddenLinks j := by
  induction hwf generalizing p with
  | @node m k hnum hlinks hhash hchildren ih =>
    rw [documentShape_object]
    by_cases hzero : linksNum (.object m) = 0
    · have hnil : treeOf (.object m) = .node (infoOf (.object m)) [] := by
        rw [treeOf, linksNum_infoOf, hzero]
        rfl
      rw [hnil, shape, shapes, Shape.node.injEq, eq_comm, List.map_eq_nil_iff]
      refine ⟨fun hnone n hn _ => ?_, fun hhidden => hhidden _ .root hzero⟩
      rcases hn.split with rfl | ⟨hne, -⟩
      · exact hnone
      · exact absurd hzero hne
    · have hlen : ((children (.object m)).length : Int) = linksNum (.object m) := by
        by_contra hne
        exact validate_of_length_ne p hlinks hzero hne h
      rw [treeOf_of_length hlen] at h ⊢
      rw [validateMerkletree, linksNum_infoOf, if_neg hzero] at h
      cases hall : validateLinks sha256 mem alloc p 0 ((children (.object m)).map treeOf) with
      | none =>
        rw [hall] at h
        split_ifs at h
      | some out =>
        rw [shape, shapes_eq, Shape.node.injEq, List.map_map, List.map_inj_left,
          noHiddenLinks_iff hzero]
        refine forall_congr' fun c => forall_congr' fun hc => ?_
        obtain ⟨q, hq⟩ := validateLinks_all hall _ (List.mem_map_of_mem hc)
        exact ih c hc hq

end

end Merkle

namespace SealedTree

section
variable {sha256 : Bytes → Hash} {mem : Mem} {env : Pos → NodeEnv} {path : Bytes}

structure Built (w w' : Walk) (text : Bytes) (bs : List Block) : Prop where
  tree : w'.tree = w.tree ++ text
  blocks : w'.blocks = w.blocks ++ bs
  blockNum : w'.blockNum = w.blockNum + bs.length
  nodeSize : w'.nodeSize = w.nodeSize + sealedSize bs

theorem Built.trans {w v u : Walk} {s t : Bytes} {bs cs : List Block} (h : Built w v s bs)
    (g : Built v u t cs) : Built w u (s ++ t) (bs ++ cs) where
  tree := by rw [g.tree, h.tree, List.append_assoc]
  blocks := by rw [g.blocks, h.blocks, List.append_assoc]
  blockNum := by
    rw [g.blockNum, h.blockNum, List.length_append]
    omega
  nodeSize := by
    rw [g.nodeSize, h.nodeSize, sealedSize_append]
    omega

theorem hexOrNone_with (served : Bool) (h : Hash) : HexOrNone (hexstringSafeWith served h.val) := by
  rw [hexstringSafeWith_hash]
  split_ifs
  · exact .inr ⟨h, rfl⟩
  · exact .inl rfl

theorem hexstringSafeWith_ne_nil (served : Bool) (h : Hash) :
    hexstringSafeWith served h.val ≠ [] ↔ served = true := by
  rw [hexstringSafeWith_hash]
  cases served with
  | true => exact iff_of_true (hexstringSafe_ne_nil h) rfl
  | false => exact iff_of_false (not_not.mpr rfl) Bool.false_ne_true

theorem sealLeaf_built {p : Pos} {n : NodeInfo} {w w' : Walk} {hash : Bytes}
    (hzero : n.linksNum = 0) (hskip : skipped env (p, n) = false)
    (h : sealLeaf sha256 mem env path p n w = some (.success, w', hash)) :
    ∃ b : Block, Built w w' (text (.leaf b hash)) [b] ∧
      hash = hexstringSafeWith (env p).mallocHexHash (blockHash sha256 b).val := by
  unfold sealLeaf at h
  split at h
  · rename_i status hget
    cases h
    simp [skipped, hget] at hskip
  rename_i status data hget
  split at h
  · rename_i hst
    cases h
    exact absurd rfl hst
  rename_i hst
  obtain rfl := not_not.mp hst
  split at h
  · cases h
  rename_i hsize
  split at h
  · rename_i hmalloc
    simp [skipped, hget, not_not.mp hsize, hmalloc] at hskip
  split at h
  · cases h
  split at h
  · cases h
  split at h
  · cases h
  unfold sealBlock at h
  split at h
  · cases h
  · rename_i out hseal
    dsimp only at h
    split_ifs at h with hrep
    · exact absurd (congrArg Prod.fst (Option.some.inj h)) hrep
    · cases h
      refine ⟨⟨blockPath path w.blockNum n.hash, _, data, out⟩, ⟨?_, rfl, rfl, ?_⟩, rfl⟩
      · dsimp only
        rw [hzero]
        simp only [text, List.append_assoc]
      · simp [sealedSize]
  · rename_i status out hns hseal
    cases h
    exact absurd rfl hns

mutual

theorem sealTree_built {p : Pos} {w w' : Walk} {hash : Bytes} (t : Tree) (hcounted : Counted t)
    (hskip : ∀ l ∈ leaves p t, skipped env l = false)
    (h : sealTree sha256 mem env path p w t = some (.success, w', hash)) :
    ∃ s : SealedTree, s.Loose ∧ s.shape = Merkle.shape t ∧ Built w w' s.text s.blocks ∧
      hash = s.rootText ∧ (s.Full ↔ ∀ q ∈ nodes p t, (env q).mallocHexHash = true) ∧
      (s.Full → s.Proper sha256) := by
  match t with
  | .node n links =>
    simp only [sealTree] at h
    cases hcounted with
    | leaf hzero =>
      rw [leaves, if_pos hzero] at hskip
      have hkept := hskip _ (List.mem_singleton.mpr rfl)
      have hsize : n.size ≠ 0 := by
        intro hn
        simp [skipped, hn] at hkept
      rw [if_neg hsize, if_pos hzero] at h
      obtain ⟨b, hbuilt, hhash⟩ := sealLeaf_built hzero hkept h
      refine ⟨.leaf b hash, .leaf b (hhash ▸ hexOrNone_with _ _), rfl, hbuilt, rfl, ?_, fun hfull => ?_⟩
      · rw [nodes, nodesOf, List.forall_mem_singleton, ← hexstringSafeWith_ne_nil _ (blockHash sha256 b),
          ← hhash]
        exact ⟨fun hfull => by cases hfull; assumption, .leaf b⟩
      · cases hfull with
        | leaf _ hne =>
          rw [hhash, hexstringSafeWith_ne_nil] at hne
          rw [hhash, hne, hexstringSafeWith_hash, if_pos rfl]
          exact .leaf b
    | node hne hlen hlinks =>
      rw [leaves, if_neg hne] at hskip
      have hsize : n.size ≠ 0 := fun hn => hne (n.size_zero hn)
      rw [if_neg hsize, if_neg hne] at h
      split at h
      · cases h
      split at h
      · cases h
      · rename_i c sub hrun
        cases h
        obtain ⟨ss, hloose, hshape, hbuilt, hfull, hproper⟩ :=
          sealLinks_built links hlinks hskip (by omega) hrun
        have hlength : ss.length = links.length := by
          rw [← length_shapes, hshape, Merkle.length_shapes]
        have hsize' : c.nodeSize = sealedSize (blocksOf ss) := hbuilt.nodeSize.trans (Nat.zero_add _)
        have hss : ss ≠ [] := by
          rintro rfl
          rw [← hlength] at hlen
          exact hne hlen.symm
        refine ⟨.node (hexstringSafeWith (env p).mallocHexHash (sgxSha256Msg sha256 sub).val) ss,
          .node (hexOrNone_with _ _) hloose, ?_, ⟨?_, ?_, ?_, ?_⟩, rfl, ?_, fun hf => ?_⟩
        · rw [shape, Merkle.shape, hshape]
        · dsimp only [closeNode]
          rw [hbuilt.tree, hsize', text, hlength, hlen]
          simp only [List.append_assoc]
        · exact hbuilt.blocks
        · exact hbuilt.blockNum
        · dsimp only [closeNode]
          rw [hsize', blocks]
        · rw [nodes, List.forall_mem_cons, ← hfull, ← hexstringSafeWith_ne_nil _ (sgxSha256Msg sha256 sub)]
          exact ⟨fun hf => by cases hf with | node hs hall => exact ⟨hs, hall⟩,
            fun ⟨hs, hall⟩ => .node hs hall⟩
        · cases hf with
          | node hs hall =>
            obtain ⟨hpropers, hsub⟩ := hproper hall
            rw [hexstringSafeWith_ne_nil] at hs
            rw [hs, hexstringSafeWith_hash, if_pos rfl, hsub]
            exact .node hss hpropers
      · rename_i status c sub hns hrun
        cases h
        exact absurd rfl hns

theorem sealLinks_built {p : Pos} {linksNum : Int} {i : Nat} {w w' : Walk} {sub : Bytes}
    (ts : List Tree) (hcounted : ∀ t ∈ ts, Counted t)
    (hskip : ∀ l ∈ leavesOf p i ts, skipped env l = false) (hi : (i : Int) + ts.length = linksNum)
    (h : sealLinks sha256 mem env path p linksNum i w ts = some (.success, w', sub)) :
    ∃ ss : List SealedTree, (∀ s ∈ ss, s.Loose) ∧ shapes ss = Merkle.shapes ts ∧
      Built w w' (Metadata.commaSep (texts ss)) (blocksOf ss) ∧
      ((∀ s ∈ ss, s.Full) ↔ ∀ q ∈ nodesOf p i ts, (env q).mallocHexHash = true) ∧
      ((∀ s ∈ ss, s.Full) → (∀ s ∈ ss, s.Proper sha256) ∧ sub = hashs sha256 ss) := by
  match ts with
  | [] =>
    simp only [sealLinks] at h
    cases h
    exact ⟨[], fun s hs => absurd hs List.not_mem_nil, rfl,
      ⟨(List.append_nil _).symm, (List.append_nil _).symm, rfl, rfl⟩,
      iff_of_true (List.forall_mem_nil _) (List.forall_mem_nil _),
      fun _ => ⟨List.forall_mem_nil _, rfl⟩⟩
  | t :: ts =>
    simp only [sealLinks] at h
    split at h
    · cases h
    · rename_i w1 hash htree
      split at h
      · cases h
      split at h
      · cases h
      · rename_i status w2 sub' hrest
        cases h
        simp only [List.length_cons, Nat.cast_add, Nat.cast_one] at hi
        obtain ⟨s, hloose, hshape, hbuilt, rfl, hfull, hproper⟩ :=
          sealTree_built t (hcounted t List.mem_cons_self)
            (fun l hl => hskip l (List.mem_append_left _ hl)) htree
        obtain ⟨ss, hlooses, hshapes, hbuilts, hfulls, hpropers⟩ := sealLinks_built ts
          (fun u hu => hcounted u (List.mem_cons_of_mem _ hu))
          (fun l hl => hskip l (List.mem_append_right _ hl)) (by push_cast; omega) hrest
        refine ⟨s :: ss, List.forall_mem_cons.mpr ⟨hloose, hlooses⟩,
          by rw [shapes, Merkle.shapes, hshape, hshapes], ?_, ?_, fun hall => ?_⟩
        · -- The comma stands behind every child but the last one.
          cases ss with
          | nil =>
            have hnil : ts = [] := by
              rw [← List.length_eq_zero_iff, ← Merkle.length_shapes, ← hshapes]
              rfl
            rw [hnil] at hi
            rw [if_neg (by simp only [List.length_nil] at hi; omega)] at hbuilts
            have htrans := hbuilt.trans hbuilts
            simpa [texts, Metadata.commaSep, blocksOf] using htrans
          | cons u us =>
            have hne : (i : Int) ≠ linksNum - 1 := by
              have hlen := congrArg List.length hshapes
              rw [length_shapes, Merkle.length_shapes, List.length_cons] at hlen
              omega
            rw [if_pos hne] at hbuilts
            have hcomma : Built w1 { w1 with tree := w1.tree ++ str "," } (str ",") [] :=
              ⟨rfl, (List.append_nil _).symm, rfl, rfl⟩
            have htrans := hbuilt.trans (hcomma.trans hbuilts)
            simp only [texts, commaSep_cons, blocksOf] at htrans ⊢
            exact htrans
        · rw [List.forall_mem_cons, nodesOf, List.forall_mem_append, hfull, hfulls]
        · obtain ⟨hf, hfs⟩ := List.forall_mem_cons.mp hall
          have hp := hproper hf
          obtain ⟨hps, hsub⟩ := hpropers hfs
          refine ⟨List.forall_mem_cons.mpr ⟨hp, hps⟩, ?_⟩
          rw [hp.rootText_eq, hexHash_hexstringSafe, hashs, hsub]
    · rename_i status w1 hash hns htree
      cases h
      exact absurd rfl hns

end

end

/-! ### The text is read back -/

section
variable {sha256 : Bytes → Hash}

abbrev Written := Bytes × Bytes × JSON

def writtenHash (s : Bytes) : Written := (mtHash, quoted s, .string s)

def writtenNat (key : Bytes) (n : Nat) : Written := (key, decInt n, .integral n)

theorem reads_written {mem : Mem} (fs : List Written)
    (h : ∀ f ∈ fs, (NoEscape f.1 ∧ Untagged f.1) ∧ Token .text mem f.2.1 f.2.2) :
    Reads .text mem (str "\x7b" ++ Metadata.commaSep (fs.map fun f => member f.1 f.2.1) ++ str "\x7d")
      (objectOf (fs.map fun f => (f.1, f.2.2))) :=
  reads_object (fun f hf => (h f hf).1.1) (fun f hf => (h f hf).1.2) fun f hf => (h f hf).2

theorem HexOrNone.noEscape {s : Bytes} (h : HexOrNone s) : NoEscape s := by
  rcases h with rfl | ⟨h, rfl⟩
  · exact fun c hc => absurd hc List.not_mem_nil
  · exact noEscape_hexstringSafe h.val

theorem HexOrNone.untagged {s : Bytes} (h : HexOrNone s) : Untagged s := by
  rcases h with rfl | ⟨h, rfl⟩
  · decide
  · exact untagged_hexstringSafe h.val

theorem token_hash (mem : Mem) {s : Bytes} (h : HexOrNone s) :
    Token .text mem (writtenHash s).2.1 (writtenHash s).2.2 := by
  have htoken : Token .text mem (quoted s) (stringValue mem s) := token_quoted h.noEscape
  rwa [stringValue_untagged mem h.untagged] at htoken

theorem token_nat (mem : Mem) {key : Bytes} {n : Nat} (hn : n < 2 ^ 63) :
    Token .text mem (writtenNat key n).2.1 (writtenNat key n).2.2 := by
  have hlow : -2 ^ 63 ≤ (n : Int) := by omega
  have hhigh : (n : Int) < 2 ^ 63 := by exact_mod_cast hn
  exact token_decInt hlow hhigh

theorem decInt_natCast (n : Nat) : decInt (n : Int) = decNat n := by
  rw [decInt, if_neg (by omega), Int.natAbs_natCast]

def leafFields (b : Block) (s : Bytes) : List Written :=
  [writtenNat mtLinksNum 0, writtenHash s, writtenNat mtSize b.sealed.length]

def linksField (ts : List SealedTree) : Written :=
  (mtLinks, str "[" ++ Metadata.commaSep (ts.map text) ++ str "]", .array (ts.map json))

def tailFields (s : Bytes) (ts : List SealedTree) : List Written :=
  [writtenNat mtLinksNum ts.length, writtenHash s, writtenNat mtSize (sealedSize (blocksOf ts))]

theorem text_leaf (b : Block) (s : Bytes) :
    text (.leaf b s) = str "\x7b" ++
      Metadata.commaSep ((leafFields b s).map fun f => member f.1 f.2.1) ++ str "\x7d" := by
  simp only [text, leafHead, nodeTail, leafFields, List.map_cons, List.map_nil, Metadata.commaSep,
    member, quoted, writtenNat, writtenHash, decInt_natCast, List.append_assoc]
  rfl

theorem text_node (s : Bytes) (ts : List SealedTree) :
    text (.node s ts) = str "\x7b" ++ (quoted mtLinks ++ str ": " ++
      ((linksField ts).2.1 ++ str "," ++
        Metadata.commaSep ((tailFields s ts).map fun f => member f.1 f.2.1) ++ str "\x7d")) := by
  simp only [text, texts_eq, nodeTail, linksField, tailFields, List.map_cons, List.map_nil,
    Metadata.commaSep, member, quoted, writtenNat, writtenHash, decInt_natCast, List.append_assoc]
  rfl

theorem json_leaf (b : Block) (s : Bytes) :
    json (.leaf b s) = objectOf ((leafFields b s).map fun f => (f.1, f.2.2)) := by
  rw [json]
  rfl

theorem json_node (s : Bytes) (ts : List SealedTree) :
    json (.node s ts) = objectOf ((linksField ts :: tailFields s ts).map fun f => (f.1, f.2.2)) := by
  rw [json, jsons_eq]
  rfl

theorem reads_token {mem : Mem} {s : SealedTree} (h : Reads .text mem s.text s.json) :
    Token .text mem s.text s.json := by
  cases s with
  | leaf b s => exact h.token (text_leaf b s) (by decide) (by decide) (by decide)
  | node s ts => exact h.token (text_node s ts) (by decide) (by decide) (by decide)

/-! #### Lengths -/

theorem length_commaSep_ge (l : List Bytes) : (l.map List.length).sum ≤ (Metadata.commaSep l).length := by
  induction l with
  | nil => exact Nat.zero_le _
  | cons x xs ih =>
    cases xs with
    | nil => simp [Metadata.commaSep]
    | cons y ys =>
      rw [commaSep_cons, List.map_cons, List.sum_cons, List.length_append, List.length_cons]
      omega

theorem length_text_pos (s : SealedTree) : 0 < s.text.length := by
  cases s with
  | leaf b s =>
    rw [text_leaf, List.length_append]
    exact Nat.add_pos_right _ (by decide)
  | node s ts =>
    rw [text_node, List.length_append]
    exact Nat.add_pos_left (by decide) _

theorem length_texts_le (s : Bytes) (ts : List SealedTree) :
    ((ts.map text).map List.length).sum ≤ (text (.node s ts)).length := by
  have hsep := length_commaSep_ge (ts.map text)
  rw [text_node]
  simp only [linksField, List.length_append]
  omega

theorem length_text_le (s : Bytes) {ts : List SealedTree} {t : SealedTree} (ht : t ∈ ts) :
    t.text.length ≤ (text (.node s ts)).length := by
  refine le_trans ?_ (length_texts_le s ts)
  rw [List.map_map]
  exact List.single_le_sum (fun _ _ => Nat.zero_le _) _ (List.mem_map.mpr ⟨t, ht, rfl⟩)

theorem length_links_mul_le {n : Nat} (s : Bytes) {ts : List SealedTree}
    (h : ∀ t ∈ ts, n ≤ t.text.length) : ts.length * n ≤ (text (.node s ts)).length := by
  refine le_trans ?_ (length_texts_le s ts)
  rw [List.map_map]
  have hcard := List.card_nsmul_le_sum (ts.map (List.length ∘ text)) n (by
    intro k hk
    obtain ⟨t, ht, rfl⟩ := List.mem_map.mp hk
    exact h t ht)
  simpa using hcard

theorem length_links_le (s : Bytes) (ts : List SealedTree) :
    ts.length ≤ (text (.node s ts)).length := by
  have hle : ts.length * 1 ≤ _ := length_links_mul_le s fun t _ => length_text_pos t
  rwa [Nat.mul_one] at hle

theorem Proper.length_text_ge {s : SealedTree} (h : s.Proper sha256) : 64 ≤ s.text.length := by
  have htail : ∀ (h : Hash) (n : Nat), 64 ≤ (nodeTail (hexstringSafe h.val) n).length := by
    intro h n
    have hlen := length_hexstringSafe h.val
    rw [h.property] at hlen
    simp only [nodeTail, List.length_append]
    omega
  cases h with
  | leaf b =>
    have hb := htail (blockHash sha256 b) b.sealed.length
    rw [text, List.length_append]
    omega
  | @node ts _ _ =>
    have hb := htail (sgxSha256Msg sha256 (hashs sha256 ts)) (sealedSize (blocksOf ts))
    rw [text, List.length_append]
    omega

theorem sealedSize_le {ts : List SealedTree} {t : SealedTree} (ht : t ∈ ts) :
    sealedSize t.blocks ≤ sealedSize (blocksOf ts) := by
  induction ts with
  | nil => exact absurd ht List.not_mem_nil
  | cons u us ih =>
    rw [blocksOf, sealedSize_append]
    rcases List.mem_cons.mp ht with rfl | ht
    · exact Nat.le_add_right _ _
    · exact (ih ht).trans (Nat.le_add_left _ _)

/-! #### The loader -/

theorem plain_keys : (NoEscape mtLinks ∧ Untagged mtLinks) ∧ (NoEscape mtLinksNum ∧ Untagged mtLinksNum) ∧
    (NoEscape mtHash ∧ Untagged mtHash) ∧ (NoEscape mtSize ∧ Untagged mtSize) := by
  decide

theorem reads_text (mem : Mem) {s : SealedTree} (hloose : s.Loose)
    (hsize : sealedSize s.blocks < 2 ^ 63) (hlen : s.text.length < 2 ^ 63) :
    Reads .text mem s.text s.json := by
  induction hloose with
  | @leaf b s hs =>
    have hb : b.sealed.length < 2 ^ 63 := by simpa [blocks, sealedSize] using hsize
    rw [text_leaf, json_leaf]
    refine reads_written _ ?_
    rw [leafFields, List.forall_mem_cons, List.forall_mem_cons, List.forall_mem_singleton]
    exact ⟨⟨plain_keys.2.1, token_nat mem (by decide)⟩, ⟨plain_keys.2.2.1, token_hash mem hs⟩,
      plain_keys.2.2.2, token_nat mem hb⟩
  | @node s ts hs hlinks ih =>
    rw [blocks] at hsize
    have hcount : ts.length < 2 ^ 63 := lt_of_le_of_lt (length_links_le s ts) hlen
    have harray : Token .text mem (linksField ts).2.1 (linksField ts).2.2 :=
      token_array fun t ht => reads_token (ih t ht (lt_of_le_of_lt (sealedSize_le ht) hsize)
        (lt_of_le_of_lt (length_text_le s ht) hlen))
    rw [text_node, json_node]
    refine Reads.spaced plain_keys.1.1 ?_
    have hfields : ∀ f ∈ linksField ts :: tailFields s ts,
        (NoEscape f.1 ∧ Untagged f.1) ∧ Token .text mem f.2.1 f.2.2 := by
      rw [tailFields, List.forall_mem_cons, List.forall_mem_cons, List.forall_mem_cons,
        List.forall_mem_singleton]
      exact ⟨⟨plain_keys.1, harray⟩, ⟨plain_keys.2.1, token_nat mem hcount⟩,
        ⟨plain_keys.2.2.1, token_hash mem hs⟩, plain_keys.2.2.2, token_nat mem hsize⟩
    have hobject := reads_written _ hfields
    rw [tailFields, List.map_cons, List.map_cons, commaSep_cons] at hobject
    rw [tailFields, List.map_cons]
    simp only [member, List.append_assoc] at hobject ⊢
    exact hobject

/-! ### What the tree functions see of it -/

theorem hashText_json {s : SealedTree} (hloose : s.Loose) : hashText s.json = s.rootText := by
  cases hloose with
  | leaf b hs => exact jsonEscape_of_noEscape hs.noEscape
  | node hs _ => exact jsonEscape_of_noEscape hs.noEscape

theorem children_node (s : Bytes) (ts : List SealedTree) :
    children (json (.node s ts)) = ts.map json := jsons_eq ts

theorem linksNum_node (s : Bytes) (ts : List SealedTree) :
    linksNum (json (.node s ts)) = ts.length := rfl

theorem hexText_hexstringSafe (h : Hash) : HexText (hexstringSafe h.val) := by
  refine ⟨by rw [length_hexstringSafe, h.property], fun c hc => ?_⟩
  obtain ⟨n, hn, rfl⟩ := mem_hexstringSafe hc
  interval_cases n <;> decide

theorem HexOrNone.hexText {s : Bytes} (h : HexOrNone s) (hne : s ≠ []) : HexText s := by
  rcases h with rfl | ⟨h, rfl⟩
  · exact absurd rfl hne
  · exact hexText_hexstringSafe h

theorem wellFormed_json {s : SealedTree} (hloose : s.Loose) : WellFormed s.json ↔ s.Full := by
  induction hloose with
  | @leaf b s hs =>
    have hhash : hashText (json (.leaf b s)) = s := hashText_json (.leaf b hs)
    constructor
    · intro hwf
      refine .leaf b fun hnone => ?_
      rw [json] at hwf hhash
      cases hwf with
      | node _ _ htext _ =>
        rw [hhash, hnone] at htext
        exact absurd htext.1 (by decide)
    · intro hfull
      cases hfull with
      | leaf _ hne =>
        have htext : HexText (hashText (json (.leaf b s))) := hhash.symm ▸ hs.hexText hne
        rw [json] at htext ⊢
        exact .node (k := 0) rfl (.inl rfl) htext fun c hc => absurd hc List.not_mem_nil
  | @node s ts hs hlinks ih =>
    have hhash : hashText (json (.node s ts)) = s := hashText_json (.node hs hlinks)
    have hchildren := children_node s ts
    constructor
    · intro hwf
      rw [json] at hwf hhash hchildren
      cases hwf with
      | node _ _ htext hall =>
        rw [hhash] at htext
        rw [hchildren] at hall
        refine .node (fun hnone => ?_) fun t ht => (ih t ht).mp (hall _ (List.mem_map_of_mem ht))
        rw [hnone] at htext
        exact absurd htext.1 (by decide)
    · intro hfull
      cases hfull with
      | node hne hall =>
        have htext : HexText (hashText (json (.node s ts))) := hhash.symm ▸ hs.hexText hne
        have hwf : ∀ c ∈ children (json (.node s ts)), WellFormed c := by
          rw [hchildren]
          intro c hc
          obtain ⟨t, ht, rfl⟩ := List.mem_map.mp hc
          exact (ih t ht).mpr (hall t ht)
        rw [json] at htext hwf ⊢
        exact .node (k := ts.length) rfl (.inr ⟨_, rfl⟩) htext hwf

theorem documentShape_json (s : SealedTree) : documentShape s.json = s.shape := by
  induction s using links_induction with
  | leaf b s =>
    rw [json, documentShape_object]
    rfl
  | node s ts ih =>
    have hchildren := children_node s ts
    rw [json] at hchildren ⊢
    rw [documentShape_object, hchildren, shape, shapes_eq, List.map_map]
    congr 1
    exact List.map_congr_left ih

theorem node_json {s : SealedTree} (hproper : s.Proper sha256) {n : JSON} (h : Node s.json n) :
    ∃ t : SealedTree, t.Proper sha256 ∧ n = t.json ∧ t.text.length ≤ s.text.length := by
  induction h with
  | root => exact ⟨s, hproper, rfl, le_rfl⟩
  | child _ hc ih =>
    obtain ⟨t, ht, rfl, hlen⟩ := ih
    cases ht with
    | leaf b => exact absurd hc List.not_mem_nil
    | node hne hlinks =>
      rw [children_node] at hc
      obtain ⟨u, hu, rfl⟩ := List.mem_map.mp hc
      exact ⟨u, hlinks u hu, rfl, (length_text_le _ hu).trans hlen⟩

theorem Proper.hashText_json {s : SealedTree} (hproper : s.Proper sha256) :
    hashText s.json = hexstringSafe (s.hash sha256).val := by
  rw [SealedTree.hashText_json hproper.loose, hproper.rootText_eq]

theorem flatMap_hashText (mem : Mem) {ts : List SealedTree} (h : ∀ t ∈ ts, t.Proper sha256) :
    ((ts.map json).flatMap fun c => (hexHash mem (hashText c)).val) = hashs sha256 ts := by
  rw [hashs_eq, List.flatMap_map]
  refine List.flatMap_congr fun t ht => ?_
  rw [(h t ht).hashText_json, hexHash_hexstringSafe]

theorem length_links_le_of_proper (s : Bytes) {ts : List SealedTree}
    (h : ∀ t ∈ ts, t.Proper sha256) : ts.length * 64 ≤ (text (.node s ts)).length :=
  length_links_mul_le s fun t ht => (h t ht).length_text_ge

theorem isMerkle_json {s : SealedTree} (hproper : s.Proper sha256)
    (hlen : s.text.length ≤ heapMaxSize) : IsMerkle sha256 s.json := by
  induction hproper with
  | leaf b =>
    rw [isMerkle_iff]
    exact fun hne => absurd rfl hne
  | @node ts hne hlinks ih =>
    rw [isMerkle_iff]
    intro _
    have hheap : (hashs sha256 ts).length ≤ heapMaxSize := by
      have hle := length_links_le_of_proper (hexstringSafe (sgxSha256Msg sha256 (hashs sha256 ts)).val)
        hlinks
      rw [hashs_eq, length_flatMap_hash, hashLength]
      omega
    have hproper := Proper.node hne hlinks
    rw [hashesChildren_iff ⟨fun _ _ => 0⟩ ((wellFormed_json hproper.loose).mpr hproper.full),
      children_node, linksNum_node, List.length_map, flatMap_hashText _ hlinks,
      hproper.hashText_json, hexHash_hexstringSafe, hash, sgxSha256Msg_of_le sha256 hheap]
    refine ⟨⟨rfl, rfl⟩, fun c hc => ?_⟩
    obtain ⟨t, ht, rfl⟩ := List.mem_map.mp hc
    exact ih t ht ((length_text_le _ ht).trans hlen)

theorem accepted_json (mem : Mem) (alloc : Pos → MerkleAlloc) (hserved : Served alloc)
    {s : SealedTree} (hproper : s.Proper sha256) (hlen : s.text.length ≤ heapMaxSize) (p : Pos) :
    validateMerkletree sha256 mem alloc p (treeOf s.json) = .success := by
  rw [validate_success_iff ((wellFormed_json hproper.loose).mpr hproper.full) hserved ?_ p]
  · exact isMerkle_json hproper hlen
  · intro n hn
    obtain ⟨t, ht, rfl, hle⟩ := node_json hproper hn
    cases ht with
    | leaf b => exact Nat.zero_le _
    | @node ts hne hlinks =>
      have hcount := length_links_le_of_proper
        (hexstringSafe (sgxSha256Msg sha256 (hashs sha256 ts)).val) hlinks
      rw [children_node, List.length_map, hashLength]
      omega

theorem treeOf_leaf (b : Block) (s : Bytes) :
    treeOf (json (.leaf b s)) = .node (infoOf (json (.leaf b s))) [] := rfl

theorem treeOf_node (s : Bytes) (ts : List SealedTree) :
    treeOf (json (.node s ts)) =
      .node (infoOf (json (.node s ts))) (ts.map fun t => treeOf t.json) := by
  have hlen : ((children (json (.node s ts))).length : Int) = linksNum (json (.node s ts)) := by
    rw [children_node, List.length_map, linksNum_node]
  have hmap : (children (json (.node s ts))).map treeOf = ts.map fun t => treeOf t.json := by
    rw [children_node, List.map_map]
    rfl
  rw [← hmap]
  rw [json] at hlen ⊢
  exact treeOf_of_length hlen

theorem dataSize_json (s : SealedTree) : (infoOf s.json).dataSize = sealedSize s.blocks := by
  cases s with
  | leaf b s =>
    have hsum : sealedSize (blocks (.leaf b s)) = b.sealed.length := by simp [blocks, sealedSize]
    rw [hsum]
    rfl
  | node s ts => rfl

variable (sha256) in
def leafFacts (b : Block) : Bytes × Int := (hexstringSafe (blockHash sha256 b).val, b.sealed.length)

theorem leaves_json {s : SealedTree} (hproper : s.Proper sha256) (p : Pos) :
    (leaves p (treeOf s.json)).map (fun l => (l.2.hash, l.2.dataSize)) =
      s.blocks.map (leafFacts sha256) := by
  induction hproper generalizing p with
  | leaf b =>
    have hhash : (infoOf (json (.leaf b (hexstringSafe (blockHash sha256 b).val)))).hash =
        hexstringSafe (blockHash sha256 b).val := (Proper.leaf b).hashText_json
    have hzero : ∀ s, (infoOf (json (.leaf b s))).linksNum = 0 := fun _ => rfl
    rw [treeOf_leaf, leaves, if_pos (hzero _), List.map_singleton, hhash]
    rfl
  | @node ts hne hlinks ih =>
    have hnum : ∀ s, (infoOf (json (.node s ts))).linksNum ≠ 0 := by
      intro s
      rw [linksNum_infoOf, linksNum_node, Nat.cast_ne_zero]
      exact mt List.length_eq_zero_iff.mp hne
    rw [treeOf_node, leaves, if_neg (hnum _), blocks]
    generalize 0 = i
    clear hnum hne hlinks
    induction ts generalizing i with
    | nil => rfl
    | cons t ts iht =>
      rw [List.map_cons, leavesOf, List.map_append, blocksOf, List.map_append,
        ih t List.mem_cons_self (i :: p),
        iht (fun u hu q => ih u (List.mem_cons_of_mem _ hu) q) (i + 1)]

/-! ### The scan for the leaves -/

variable (sha256) in
def leafItem (b : Block) : Bytes := hexstringSafe (blockHash sha256 b).val ++ etag ++ str ":"

theorem stag_cons : stag = 34 :: (mtLinksNum ++ str "\":0,\"" ++ mtHash ++ str "\":\"") := rfl

theorem skips_plain {u : Bytes} (h : (34 : UInt8) ∉ u) : Skips stag u := by
  rw [stag_cons]
  exact skips_of_not_mem h

theorem quote_not_mem_hex (s : Bytes) : (34 : UInt8) ∉ hexstringSafe s := by
  intro h
  exact (noEscape_ne (noEscape_hexstringSafe s 34 h)).1 rfl

theorem quote_not_mem_decNat (n : Nat) : (34 : UInt8) ∉ decNat n := by
  intro h
  exact absurd (decNat_digits n 34 h) (by decide)

theorem skips_etag : Skips stag (etag ++ str ":") := skips_of_differs (by decide)

theorem skips_leafItem (b : Block) : Skips stag (leafItem sha256 b) := by
  rw [leafItem, List.append_assoc]
  exact (skips_plain (quote_not_mem_hex _)).append skips_etag

theorem skips_size (n : Nat) : Skips stag (decNat n ++ str "\x7d") := by
  refine (skips_plain (quote_not_mem_decNat n)).append (skips_plain ?_)
  decide

theorem skips_hash (h : Hash) : Skips stag (str ",\"" ++ mtHash ++ str "\":\"" ++ hexstringSafe h.val) := by
  have hne : h.val ≠ [] := byteArr_ne_nil h (by decide)
  obtain ⟨b, t, hbt⟩ := List.exists_cons_of_ne_nil hne
  have hb := b.toNat_lt
  have hhead : ∀ k < 16, Skips stag (str ",\"" ++ mtHash ++ str "\":\"" ++ [hextable k]) := by
    intro k hk
    refine skips_of_differs ?_
    interval_cases k <;> decide
  have hrest : (34 : UInt8) ∉ hextable (b.toNat % 16) :: hexstringSafe t := by
    intro hmem
    refine quote_not_mem_hex (b :: t) ?_
    rw [hexstringSafe_cons]
    exact List.mem_cons_of_mem _ hmem
  have hsplit := (hhead (b.toNat / 16) (by omega)).append (skips_plain hrest)
  rw [List.append_assoc _ [_]] at hsplit
  rwa [hbt, hexstringSafe_cons]

theorem skips_linksNum {n : Nat} (hn : n ≠ 0) :
    Skips stag (str "],\"" ++ mtLinksNum ++ str "\":" ++ decNat n) := by
  obtain ⟨d, t, hd⟩ := List.exists_cons_of_ne_nil (decNat_ne_nil n)
  have hzero : d ≠ 48 := by
    rintro rfl
    exact (decNat_head n).resolve_left hn t hd
  obtain ⟨hlo, hhi⟩ := decNat_digits n d (by rw [hd]; exact List.mem_cons_self)
  obtain ⟨k, hk, rfl⟩ : ∃ k, k < 9 ∧ d = UInt8.ofNat (49 + k) := by
    rw [UInt8.le_iff_toNat_le] at hlo hhi
    have h48 : (48 : UInt8).toNat = 48 := rfl
    have h57 : (57 : UInt8).toNat = 57 := rfl
    have hne : d.toNat ≠ 48 := fun h => hzero (UInt8.toNat_inj.mp h)
    refine ⟨d.toNat - 49, by omega, ?_⟩
    rw [show 49 + (d.toNat - 49) = d.toNat by omega, UInt8.ofNat_toNat]
  have hhead : Skips stag (str "],\"" ++ mtLinksNum ++ str "\":" ++ [UInt8.ofNat (49 + k)]) := by
    refine skips_of_differs ?_
    clear hlo hhi hzero hd
    interval_cases k <;> decide
  have hrest : (34 : UInt8) ∉ t := by
    intro hmem
    refine quote_not_mem_decNat n ?_
    rw [hd]
    exact List.mem_cons_of_mem _ hmem
  have hsplit := hhead.append (skips_plain hrest)
  rw [List.append_assoc _ [_]] at hsplit
  rwa [hd]

theorem marked_commaSep {ts : List SealedTree}
    (h : ∀ t ∈ ts, Marked stag (t.blocks.map (leafItem sha256)) t.text) :
    Marked stag ((blocksOf ts).map (leafItem sha256)) (Metadata.commaSep (ts.map text)) := by
  induction ts with
  | nil => exact .nil skips_nil
  | cons t ts ih =>
    have hfirst := h t List.mem_cons_self
    have hrest := ih fun u hu => h u (List.mem_cons_of_mem _ hu)
    rw [blocksOf, List.map_append]
    cases ts with
    | nil => simpa [blocksOf, Metadata.commaSep] using hfirst
    | cons u us =>
      have hcomma : Skips stag (str ",") := skips_of_differs (by decide)
      rw [List.map_cons, List.map_cons, commaSep_cons]
      exact hfirst.append (hrest.prepend hcomma)

theorem marked_text {s : SealedTree} (hproper : s.Proper sha256) :
    Marked stag (s.blocks.map (leafItem sha256)) s.text := by
  induction hproper with
  | leaf b =>
    have htext : text (.leaf b (hexstringSafe (blockHash sha256 b).val)) =
        str "\x7b" ++ stag ++ leafItem sha256 b ++ (decNat b.sealed.length ++ str "\x7d") := by
      simp only [text, leafHead, nodeTail, leafItem, stag, etag, List.append_assoc]
      rfl
    have hopen : Skips stag (str "\x7b") := skips_of_differs (by decide)
    rw [htext]
    exact .cons hopen (skips_leafItem b) (.nil (skips_size _))
  | @node ts hne hlinks ih =>
    generalize sgxSha256Msg sha256 (hashs sha256 ts) = root
    have htext : text (.node (hexstringSafe root.val) ts) =
        (str "\x7b\"" ++ mtLinks ++ str "\": [") ++ (Metadata.commaSep (ts.map text) ++
        ((str "],\"" ++ mtLinksNum ++ str "\":" ++ decNat ts.length) ++
        ((str ",\"" ++ mtHash ++ str "\":\"" ++ hexstringSafe root.val) ++
        ((etag ++ str ":") ++ (decNat (sealedSize (blocksOf ts)) ++ str "\x7d"))))) := by
      simp only [text, texts_eq, nodeTail, etag, decInt_natCast, List.append_assoc]
      rfl
    have hopen : Skips stag (str "\x7b\"" ++ mtLinks ++ str "\": [") := skips_of_differs (by decide)
    have hclose := (skips_linksNum (mt List.length_eq_zero_iff.mp hne)).append
      ((skips_hash root).append (skips_etag.append (skips_size (sealedSize (blocksOf ts)))))
    have hmarked := ((marked_commaSep ih).append (.nil hclose)).prepend hopen
    rw [List.append_nil] at hmarked
    rw [htext]
    exact hmarked

theorem seekLeaf_count {s : Bytes} {n spos cur q : Nat} (h : (seekLeaf s n spos cur).1 = some q) :
    (seekLeaf s n spos cur).2 = cur + n + 1 := by
  induction n generalizing spos cur with
  | zero =>
    unfold seekLeaf at h ⊢
    split at h
    · cases h
    · rfl
  | succ n ih =>
    unfold seekLeaf at h ⊢
    split at h
    · cases h
    · rw [ih h]
      omega

theorem seekLeaf_marked {s : Bytes} {xs : List Bytes} {n spos : Nat} (cur : Nat)
    (hpos : spos ≤ s.length) (h : Marked stag xs (s.drop spos)) (hn : n < xs.length) :
    ∃ q rest, q ≤ s.length ∧ seekLeaf s n spos cur = (some q, cur + n + 1) ∧
      s.drop q = xs[n] ++ rest ∧ Marked stag (xs.drop (n + 1)) rest := by
  obtain ⟨rest, hnth, -, hmarked⟩ := h.nth hn
  obtain ⟨q, hq, hseek, hdrop⟩ := seekLeaf_complete cur hpos hnth
  exact ⟨q, rest, hq, Prod.ext hseek (seekLeaf_count hseek), hdrop, hmarked⟩

variable (sha256) in
/-- The loop as it should be: for each index the host is asked for the sealed block, and its
answer is compared with the hash of the block. -/
def checkSealed (env : CheckEnv) : List (Nat × Block) → Verdict
  | [] => .passed
  | (i, b) :: bs =>
    let reply := env.validateGetFile
      (decNat i ++ str "_" ++ hexstringSafe (blockHash sha256 b).val)
    if reply.1 ≠ .success then
      if reply.1 = .validateKarstOffline then .offline else .failed
    else if ¬ env.mallocLeafHash then checkSealed env bs
    else if blockHash sha256 b ≠ gotHash sha256 env reply.2 then .failed
    else checkSealed env bs

theorem checkBlocks_eq (mem : Mem) (env : CheckEnv) {s : Bytes} {blocks : List Block}
    {bs : List (Nat × Block)} (hsorted : (bs.map Prod.fst).Pairwise (· < ·))
    (hblocks : ∀ x ∈ bs, blocks[x.1]? = some x.2) {spos cur : Nat} (hcur : ∀ x ∈ bs, cur ≤ x.1)
    (hpos : spos ≤ s.length)
    (hmarked : Marked stag ((blocks.drop cur).map (leafItem sha256)) (s.drop spos)) :
    checkBlocks sha256 mem env s (bs.map Prod.fst) spos cur = checkSealed sha256 env bs := by
  induction bs generalizing spos cur with
  | nil => rfl
  | cons x bs ih =>
    obtain ⟨i, b⟩ := x
    have hib : blocks[i]? = some b := hblocks (i, b) List.mem_cons_self
    have hle : cur ≤ i := hcur (i, b) List.mem_cons_self
    obtain ⟨hlt, hget⟩ := List.getElem?_eq_some_iff.mp hib
    have hn : i - cur < ((blocks.drop cur).map (leafItem sha256)).length := by
      rw [List.length_map, List.length_drop]
      omega
    obtain ⟨q, rest, hq, hseek, hdrop, hrest⟩ := seekLeaf_marked cur hpos hmarked hn
    have hitem : ((blocks.drop cur).map (leafItem sha256))[i - cur] = leafItem sha256 b := by
      rw [List.getElem_map, List.getElem_drop]
      simp only [Nat.add_sub_cancel' hle, hget]
    rw [hitem] at hdrop
    rw [← List.map_drop, List.drop_drop, show cur + (i - cur + 1) = i + 1 by omega] at hrest
    have hnext : cur + (i - cur) + 1 = i + 1 := by omega
    rw [hnext] at hseek
    -- The next round starts behind the tag or behind the hash, in front of the same leaves.
    have htail : ∀ spos', spos' ≤ s.length →
        Marked stag ((blocks.drop (i + 1)).map (leafItem sha256)) (s.drop spos') →
        checkBlocks sha256 mem env s (bs.map Prod.fst) spos' (i + 1) = checkSealed sha256 env bs := by
      intro spos' hpos' hmarked'
      rw [List.map_cons, List.pairwise_cons] at hsorted
      refine ih hsorted.2 (fun y hy => hblocks y (List.mem_cons_of_mem _ hy)) (fun y hy => ?_) hpos'
        hmarked'
      exact hsorted.1 y.1 (List.mem_map_of_mem hy)
    have hfirst : FirstAt etag (s.drop q) (hexstringSafe (blockHash sha256 b).val) (str ":" ++ rest) := by
      have hskip : Skips etag (hexstringSafe (blockHash sha256 b).val) :=
        skips_of_not_mem (quote_not_mem_hex _)
      have heq : s.drop q = hexstringSafe (blockHash sha256 b).val ++ etag ++ (str ":" ++ rest) := by
        rw [hdrop, leafItem, List.append_assoc (_ ++ _)]
      rw [heq]
      exact hskip.firstAt _
    have hfind := find_complete hq hfirst
    generalize hlen : (hexstringSafe (blockHash sha256 b).val).length + q = epos at hfind
    have hleaf : (s.drop q).take (epos - q) = hexstringSafe (blockHash sha256 b).val := by
      rw [← hlen, Nat.add_sub_cancel, hfirst.split, List.append_assoc, List.take_left]
    have hbehind : Marked stag ((blocks.drop (i + 1)).map (leafItem sha256)) (s.drop q) := by
      rw [hdrop]
      exact hrest.prepend (skips_leafItem b)
    have hepos : epos ≤ s.length := by
      have hsplit := congrArg List.length hfirst.split
      simp only [List.length_append, List.length_drop] at hsplit
      omega
    have hafter : Marked stag ((blocks.drop (i + 1)).map (leafItem sha256)) (s.drop epos) := by
      have heq : s.drop epos = etag ++ str ":" ++ rest := by
        rw [← hlen, Nat.add_comm, ← List.drop_drop, hfirst.split, List.append_assoc, List.drop_left,
          List.append_assoc]
      rw [heq]
      exact hrest.prepend skips_etag
    have hbytes : hexStringToBytes (hexstringSafe (blockHash sha256 b).val) =
        some (blockHash sha256 b).val := hexStringToBytes_hexstringSafe (byteArr_ne_nil _ (by decide))
    rw [List.map_cons, checkBlocks, hseek, checkSealed]
    dsimp only
    rw [hfind]
    dsimp only
    rw [hleaf, hbytes]
    dsimp only
    rw [mem.read_full, htail q hq hbehind, htail epos hepos hafter]

/-! ### The new entry -/

theorem addSealed_entry {τ : Type} {mem : Mem} {senv : SealEnv} {tag : τ} {wl : Workload τ}
    {path : Bytes} {n : NodeInfo} {w : Walk} {root : Hash} {file : FileItem τ}
    (h : (addSealed mem senv tag wl path n w (hexstringSafe root.val)).wl.newFiles =
      wl.newFiles ++ [file]) :
    ∃ orgHash, file.json = fileEntry root orgHash w.nodeSize n.dataSize w.blockNum := by
  have hsame : wl.newFiles ≠ wl.newFiles ++ [file] := by simp
  unfold addSealed at h
  dsimp only at h
  rw [hexStringToBytes_hexstringSafe (byteArr_ne_nil root (by decide))] at h
  split at h
  · exact absurd h hsame
  split at h
  · rename_i newHash orgHash hnew _
    obtain rfl := Option.some.inj hnew
    split_ifs at h
    · exact absurd h hsame
    · exact absurd h hsame
    · obtain rfl := List.singleton_inj.mp (List.append_cancel_left h)
      rw [mem.read_full]
      exact ⟨_, rfl⟩
    · exact absurd h hsame
  · exact absurd h hsame

theorem fileEntry_hash (nh oh : Hash) (ns : Nat) (os : Int) (bn : Nat) :
    (fileEntry nh oh ns os bn).get fileHash = .hash nh := by
  unfold fileEntry
  rw [JSON.get_put_ne _ (by decide), JSON.get_put_ne _ (by decide), JSON.get_put_ne _ (by decide),
    JSON.get_put_ne _ (by decide), JSON.get_put_ne _ (by decide), JSON.get_put_self]

/-- The text of a sealed tree, as the other functions of the enclave see it. -/
structure Indexable (sha256 : Bytes → Hash) (mem : Mem) (original : JSON) (blocks : List Block)
    (newTree : Bytes) (sealedJson : JSON) : Prop where
  parses : load mem newTree = .ok sealedJson
  wellFormed : WellFormed sealedJson
  sameShape : documentShape sealedJson = documentShape original
  accepted : ∀ alloc, Served alloc →
    validateMerkletree sha256 mem alloc [] (treeOf sealedJson) = .success
  sealedLeaves : (leaves [] (treeOf sealedJson)).map (fun l => (l.2.hash, l.2.dataSize)) =
    blocks.map (leafFacts sha256)
  sizes : ∀ n, Node sealedJson n →
    (infoOf n).dataSize = ((leaves [] (treeOf n)).map fun l => l.2.dataSize).sum
  scan : ∀ (env : CheckEnv) (bs : List (Nat × Block)), (bs.map Prod.fst).Pairwise (· < ·) →
    (∀ x ∈ bs, blocks[x.1]? = some x.2) →
    checkBlocks sha256 mem env newTree (bs.map Prod.fst) 0 0 = checkSealed sha256 env bs

theorem sum_dataSize {s : SealedTree} (hproper : s.Proper sha256) (p : Pos) :
    ((leaves p (treeOf s.json)).map fun l => l.2.dataSize).sum = sealedSize s.blocks := by
  have hleaves := congrArg (List.map Prod.snd) (leaves_json hproper p)
  rw [List.map_map, List.map_map] at hleaves
  have hsnd : (leaves p (treeOf s.json)).map (fun l => l.2.dataSize) =
      s.blocks.map fun b => (b.sealed.length : Int) := hleaves
  rw [hsnd, sealedSize, Nat.cast_list_sum, List.map_map]
  rfl

end

theorem length_blocks_le (s : SealedTree) : s.blocks.length ≤ s.text.length := by
  induction s using links_induction with
  | leaf b s => exact length_text_pos (.leaf b s)
  | node s ts ih =>
    refine le_trans ?_ (length_texts_le s ts)
    rw [blocks, blocksOf_eq, List.length_flatMap, List.map_map]
    exact List.sum_le_sum ih

theorem load_text (mem : Mem) {s : SealedTree} (hloose : s.Loose)
    (hfits : s.text.length ≤ heapMaxSize)
    (hsealed : ∀ b ∈ s.blocks, b.sealed.length ≤ heapMaxSize) :
    load mem s.text = .ok s.json := by
  have hsize : sealedSize s.blocks < 2 ^ 63 := by
    have hcard := List.sum_le_card_nsmul (s.blocks.map fun b => b.sealed.length) heapMaxSize (by
      intro n hn
      obtain ⟨b, hb, rfl⟩ := List.mem_map.mp hn
      exact hsealed b hb)
    rw [List.length_map, nsmul_eq_mul, Nat.cast_id] at hcard
    calc sealedSize s.blocks ≤ s.blocks.length * heapMaxSize := hcard
      _ ≤ heapMaxSize * heapMaxSize :=
        Nat.mul_le_mul_right _ ((length_blocks_le s).trans hfits)
      _ < 2 ^ 63 := by decide
  exact load_of_reads (reads_text mem hloose hsize (lt_of_le_of_lt hfits (by decide)))
    (List.ne_nil_of_length_pos (length_text_pos s))

section
variable {sha256 : Bytes → Hash}

theorem indexable (mem : Mem) {original : JSON} {s : SealedTree} (hproper : s.Proper sha256)
    (hshape : s.shape = documentShape original) (hfits : s.text.length ≤ heapMaxSize)
    (hsealed : ∀ b ∈ s.blocks, b.sealed.length ≤ heapMaxSize) :
    Indexable sha256 mem original s.blocks s.text s.json where
  parses := load_text mem hproper.loose hfits hsealed
  wellFormed := (wellFormed_json hproper.loose).mpr hproper.full
  sameShape := (documentShape_json s).trans hshape
  accepted := fun alloc hserved => accepted_json mem alloc hserved hproper hfits []
  sealedLeaves := leaves_json hproper []
  sizes := by
    intro n hn
    obtain ⟨t, ht, rfl, -⟩ := node_json hproper hn
    rw [dataSize_json, sum_dataSize ht]
  scan := by
    intro env bs hsorted hblocks
    exact checkBlocks_eq mem env hsorted hblocks (fun _ _ => Nat.zero_le _) (Nat.zero_le _)
      (marked_text hproper)

variable {mem : Mem} {alloc : Pos → MerkleAlloc} {env : Pos → NodeEnv} {treeJson : JSON}
  {path newRoot : Bytes} {w : Walk}

theorem walk_indexable (hwf : WellFormed treeJson)
    (hvalid : validateMerkletree sha256 mem alloc [] (treeOf treeJson) = .success)
    (hwalk : sealTree sha256 mem env path [] ⟨[], 0, 0, []⟩ (treeOf treeJson) =
      some (.success, w, newRoot))
    (hskip : ∀ l ∈ leaves [] (treeOf treeJson), skipped env l = false)
    (hfits : w.tree.length ≤ heapMaxSize) (hsealed : ∀ b ∈ w.blocks, b.sealed.length ≤ heapMaxSize) :
    ∃ s : SealedTree, w.tree = s.text ∧ w.blocks = s.blocks ∧ w.blockNum = s.blocks.length ∧
      newRoot = s.rootText ∧
      (∀ sealedJson, Indexable sha256 mem treeJson s.blocks s.text sealedJson →
        (∀ q ∈ nodes [] (treeOf treeJson), (env q).mallocHexHash = true) ∧
          NoHiddenLinks treeJson) ∧
      ((∀ q ∈ nodes [] (treeOf treeJson), (env q).mallocHexHash = true) ∧ NoHiddenLinks treeJson →
        s.Proper sha256 ∧ Indexable sha256 mem treeJson s.blocks s.text s.json) := by
  obtain ⟨s, hloose, hshape, hbuilt, hroot, hfull, hproper⟩ :=
    sealTree_built (treeOf treeJson) (counted_of_accepted hwf hvalid) hskip hwalk
  have htree : w.tree = s.text := hbuilt.tree.trans (List.nil_append _)
  have hblocks : w.blocks = s.blocks := hbuilt.blocks.trans (List.nil_append _)
  have hnum : w.blockNum = s.blocks.length := hbuilt.blockNum.trans (Nat.zero_add _)
  rw [htree] at hfits
  rw [hblocks] at hsealed
  have hhidden := shape_treeOf_eq_iff hwf hvalid
  refine ⟨s, htree, hblocks, hnum, hroot, fun sealedJson h => ?_, fun ⟨hserved, hlinks⟩ => ?_⟩
  · -- The loader reads the document of the tree, whatever texts are missing in it.
    obtain rfl : s.json = sealedJson :=
      Except.ok.inj ((load_text mem hloose hfits hsealed).symm.trans h.parses)
    refine ⟨hfull.mp ((wellFormed_json hloose).mp h.wellFormed), hhidden.mp ?_⟩
    rw [← hshape, ← documentShape_json, h.sameShape]
  · have hp := hproper (hfull.mpr hserved)
    exact ⟨hp, indexable mem hp (hshape.trans (hhidden.mpr hlinks)) hfits hsealed⟩

end

/-- Where every leaf was sealed, the text that the walk wrote can be indexed, and an entry that is
added for it carries its root hash and the number of its leaves, exactly when every hash got its
text and no link is hidden. -/
theorem sealed_tree_indexable_iff {τ : Type} {sha256 : Bytes → Hash} {mem : Mem} {senv : SealEnv}
    {tag : τ} {wl : Workload τ} {treeText path : Bytes} {treeJson : JSON} {w : Walk}
    {newRoot : Bytes} {res : SealResult τ} (hload : load mem treeText = .ok treeJson)
    (hwf : WellFormed treeJson)
    (hvalid : validateMerkletree sha256 mem senv.merkle [] (treeOf treeJson) = .success)
    (hwalk : sealTree sha256 mem senv.node path [] ⟨[], 0, 0, []⟩ (treeOf treeJson) =
      some (.success, w, newRoot))
    (hskip : ∀ l ∈ leaves [] (treeOf treeJson), skipped senv.node l = false)
    (hseal : storageSealFile sha256 mem senv tag wl treeText path = some res)
    (hfits : w.tree.length ≤ heapMaxSize) (hsealed : ∀ b ∈ w.blocks, b.sealed.length ≤ heapMaxSize) :
    (∃ sealedJson, Indexable sha256 mem treeJson w.blocks w.tree sealedJson ∧
      ∀ file, res.wl.newFiles = wl.newFiles ++ [file] →
        (file.json.get fileHash).toStr = hashText sealedJson ∧
          (file.json.get fileBlockNum).toInt = (w.blocks.length : Int)) ↔
      (∀ q ∈ nodes [] (treeOf treeJson), (senv.node q).mallocHexHash = true) ∧
        NoHiddenLinks treeJson := by
  obtain ⟨s, htree, hblocks, hnum, hroot, honly, hbuild⟩ :=
    walk_indexable hwf hvalid hwalk hskip hfits hsealed
  rw [htree, hblocks]
  refine ⟨fun ⟨sealedJson, h, _⟩ => honly sealedJson h, fun hcond => ?_⟩
  obtain ⟨hproper, hindexable⟩ := hbuild hcond
  refine ⟨s.json, hindexable, fun file hfile => ?_⟩
  have hentry : ∃ orgHash, file.json = fileEntry (s.hash sha256) orgHash w.nodeSize
      (treeOf treeJson).info.dataSize w.blockNum := by
    have hsame : wl.newFiles ≠ wl.newFiles ++ [file] := by simp
    unfold storageSealFile at hseal
    dsimp only at hseal
    split_ifs at hseal
    · cases hseal
      exact absurd hfile hsame
    rw [hload] at hseal
    dsimp only at hseal
    split_ifs at hseal
    · cases hseal
      exact absurd hfile hsame
    rw [hvalid] at hseal
    dsimp only at hseal
    rw [hwalk] at hseal
    dsimp only at hseal
    cases hseal
    rw [hroot, hproper.rootText_eq] at hfile
    exact addSealed_entry hfile
  obtain ⟨orgHash, hjson⟩ := hentry
  rw [hjson, fileEntry_blockNum, fileEntry_hash, hproper.hashText_json, hnum]
  exact ⟨rfl, rfl⟩

def abcTree : SealedTree :=
  let b : Block := ⟨[], [], [], str "abc"⟩
  let leaf : SealedTree := .leaf b (hexstringSafe (blockHash Sha256.sha256 b).val)
  .node (hexstringSafe (sgxSha256Msg Sha256.sha256 (hashs Sha256.sha256 [leaf])).val) [leaf]

theorem abcTree_proper : abcTree.Proper Sha256.sha256 := by
  refine .node (List.cons_ne_nil _ _) fun t ht => ?_
  obtain rfl := List.mem_singleton.mp ht
  exact .leaf _

def abcEnv (served : Bool) : SealEnv :=
  let host := hostEnv (.success, some (str "abc"))
  { host with node := fun p => { host.node p with mallocHexHash := served || p.isEmpty } }

def sealAbc (served : Bool) : Option (SealResult Unit) :=
  storageSealFile Sha256.sha256 ⟨fun _ _ => 0⟩ (abcEnv served) () freshWorkload abcTree.text (str "p")

def walkAbc (served : Bool) : Option Sealed :=
  sealTree Sha256.sha256 ⟨fun _ _ => 0⟩ (abcEnv served).node (str "p") [] ⟨[], 0, 0, []⟩
    (treeOf abcTree.json)

theorem abcTree_loads :
    abcTree.text.length ≤ heapMaxSize ∧
      load ⟨fun _ _ => 0⟩ abcTree.text = .ok abcTree.json ∧
      WellFormed abcTree.json ∧ NoHiddenLinks abcTree.json ∧
      validateMerkletree Sha256.sha256 ⟨fun _ _ => 0⟩ (fun _ => ⟨true, true, true⟩) []
        (treeOf abcTree.json) = .success := by
  have hlen : abcTree.text.length ≤ heapMaxSize := by decide +kernel
  have hwf := (wellFormed_json abcTree_proper.loose).mpr abcTree_proper.full
  have hvalid := accepted_json ⟨fun _ _ => 0⟩ (fun _ => ⟨true, true, true⟩)
    (fun _ => rfl) abcTree_proper hlen []
  refine ⟨hlen, load_text _ abcTree_proper.loose hlen (by decide), hwf, ?_, hvalid⟩
  rw [← shape_treeOf_eq_iff hwf hvalid]
  rfl

theorem sealAbc_runs (served : Bool) :
    ∃ w newRoot res, walkAbc served = some (.success, w, newRoot) ∧ sealAbc served = some res ∧
      res.status = .success ∧ res.wl.newFiles.length = 1 ∧ w.tree.length ≤ heapMaxSize ∧
      (∀ b ∈ w.blocks, b.sealed.length ≤ heapMaxSize) ∧
      ∀ l ∈ leaves [] (treeOf abcTree.json), skipped (abcEnv served).node l = false := by
  have hwalk : (walkAbc served).map (fun r => (r.1, decide (r.2.1.tree.length ≤ heapMaxSize),
      r.2.1.blocks.all fun b => decide (b.sealed.length ≤ heapMaxSize))) =
        some (.success, true, true) := by
    cases served <;> decide +kernel
  have hseal : (sealAbc served).map (fun r => (r.status, r.wl.newFiles.length)) =
      some (.success, 1) := by
    cases served <;> decide +kernel
  have hskip : ((leaves [] (treeOf abcTree.json)).all fun l =>
      !skipped (abcEnv served).node l) = true := by
    cases served <;> decide +kernel
  obtain ⟨⟨status, w, newRoot⟩, hrun, hfacts⟩ := Option.map_eq_some_iff.mp hwalk
  simp only [Prod.mk.injEq, decide_eq_true_eq, List.all_eq_true] at hfacts
  obtain ⟨rfl, hfits, hsealed⟩ := hfacts
  obtain ⟨res, hres, hdone⟩ := Option.map_eq_some_iff.mp hseal
  rw [Prod.mk.injEq] at hdone
  refine ⟨w, newRoot, res, hrun, hres, hdone.1, hdone.2, hfits, hsealed, fun l hl => ?_⟩
  exact Bool.not_eq_true' _ ▸ List.all_eq_true.mp hskip l hl

theorem sealed_tree_indexable_abc :
    ∃ w newRoot res, walkAbc true = some (.success, w, newRoot) ∧ sealAbc true = some res ∧
      res.status = .success ∧
      ((∃ sealedJson, Indexable Sha256.sha256 ⟨fun _ _ => 0⟩ abcTree.json w.blocks w.tree sealedJson ∧
        ∀ file, res.wl.newFiles = freshWorkload.newFiles ++ [file] →
          (file.json.get fileHash).toStr = hashText sealedJson ∧
            (file.json.get fileBlockNum).toInt = (w.blocks.length : Int)) ↔
        (∀ q ∈ nodes [] (treeOf abcTree.json), ((abcEnv true).node q).mallocHexHash = true) ∧
          NoHiddenLinks abcTree.json) ∧
      NoHiddenLinks abcTree.json := by
  obtain ⟨-, hload, hwf, hlinks, hvalid⟩ := abcTree_loads
  obtain ⟨w, newRoot, res, hwalk, hres, hs, -, hfits, hsealed, hskip⟩ := sealAbc_runs true
  exact ⟨w, newRoot, res, hwalk, hres, hs,
    sealed_tree_indexable_iff hload hwf hvalid hwalk hskip hres hfits hsealed, hlinks⟩

/-- Without a buffer for its hex text the hash of the only block is missing in the sealed tree, and
the entry is added. -/
theorem sealed_tree_without_hash :
    ∃ w newRoot res, walkAbc false = some (.success, w, newRoot) ∧ sealAbc false = some res ∧
      res.status = .success ∧ res.wl.newFiles.length = 1 ∧
      ∀ sealedJson, ¬ Indexable Sha256.sha256 ⟨fun _ _ => 0⟩ abcTree.json w.blocks w.tree sealedJson := by
  obtain ⟨-, -, hwf, -, hvalid⟩ := abcTree_loads
  obtain ⟨w, newRoot, res, hwalk, hres, hs, hnew, hfits, hsealed, hskip⟩ := sealAbc_runs false
  refine ⟨w, newRoot, res, hwalk, hres, hs, hnew, fun sealedJson h => ?_⟩
  obtain ⟨s, htree, hblocks, -, -, honly, -⟩ := walk_indexable hwf hvalid hwalk hskip hfits hsealed
  rw [htree, hblocks] at h
  exact absurd ((honly sealedJson h).1 [0] (by decide)) (by decide)

end SealedTree

end CrustSworker
