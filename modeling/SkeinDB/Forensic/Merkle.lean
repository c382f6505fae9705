import SkeinDB.Codec.MerkleTree
import SkeinDB.Encryption.Envelope
import SkeinDB.Forensic.Proofs
import SkeinDB.Text.Utf8
import SkeinDB.Values.ObjectsPull

/-!
# Inclusion proofs

`skeindb/src/engine/forensic_helpers.rs`: the Merkle root over the hashes of a list of records,
and the proof of a record, a list of siblings. Both loops combine the hashes level by level, and
the last of an odd number goes up unchanged.
-/
namespace SkeinDB.Forensic
open SkeinDB.Codec SkeinDB.Format SkeinDB.Values SkeinDB.Text

section Definitions
variable (valueId : Bytes → ValueId)

/-- `format!("{}:{}", left, right)`, as bytes. -/
def pairText (p : String × String) : Bytes := utf8 (p.1 ++ ":" ++ p.2).toList

def combined (left right : String) : String := valueIdToHex (valueId (pairText (left, right)))

/-- The next level. -/
def combinePass : List String → List String
  | left :: right :: rest => combined valueId left right :: combinePass rest
  | rest => rest

theorem combinePass_length (hashes : List String) :
    (combinePass valueId hashes).length = (hashes.length + 1) / 2 := by
  fun_induction combinePass valueId hashes with
  | case1 left right rest ih =>
    simp only [List.length_cons, ih]
    omega
  | case2 rest hshort =>
    rcases rest with _ | ⟨hash, _ | ⟨hash', rest⟩⟩
    · rfl
    · simp
    · exact absurd rfl (hshort hash hash' rest)

def merkleLoop (hashes : List String) : Option String :=
  if 1 < hashes.length then merkleLoop (combinePass valueId hashes) else hashes.head?
termination_by hashes.length
decreasing_by
  rw [combinePass_length]
  omega

def forensicMerkleRoot (records : List (ForensicRecord String)) : Option String :=
  if records = [] then none else merkleLoop valueId (records.map (·.hash))

/-- What one pass over a level leaves. -/
structure ProofPass where
  next : List String
  proof : List (String × Bool)
  newIdx : ℕ

def proofPass (idx : ℕ) : (i : ℕ) → List String → ProofPass → ProofPass
  | i, left :: right :: rest, p =>
    let next := p.next ++ [combined valueId left right]
    proofPass idx (i + 2) rest
      (if i = idx then ⟨next, p.proof ++ [(right, true)], p.next.length⟩
      else if i + 1 = idx then ⟨next, p.proof ++ [(left, false)], p.next.length⟩
      else ⟨next, p.proof, p.newIdx⟩)
  | i, [last], p => ⟨p.next ++ [last], p.proof, if i = idx then p.next.length else p.newIdx⟩
  | _, [], p => p

theorem proofPass_next (idx i : ℕ) (hashes : List String) (p : ProofPass) :
    (proofPass valueId idx i hashes p).next = p.next ++ combinePass valueId hashes := by
  fun_induction proofPass valueId idx i hashes p with
  | case1 i p left right rest next ih =>
    rw [ih, combinePass]
    split_ifs <;> exact List.append_assoc _ [_] _
  | case2 i p last => rfl
  | case3 i p => exact (List.append_nil _).symm

def proofLoop (hashes : List String) (idx : ℕ) (proof : List (String × Bool)) :
    List (String × Bool) :=
  if 1 < hashes.length then
    let pass := proofPass valueId idx 0 hashes ⟨[], proof, 0⟩
    proofLoop pass.next pass.newIdx pass.proof
  else proof
termination_by hashes.length
decreasing_by
  rw [proofPass_next, List.nil_append, combinePass_length]
  omega

def forensicMerkleProof (records : List (ForensicRecord String)) (targetIdx : ℕ) :
    List (String × Bool) :=
  if records = [] ∨ records.length ≤ targetIdx then []
  else proofLoop valueId (records.map (·.hash)) targetIdx []

structure InclusionProof where
  recordId : ℕ
  chainIndex : ℕ
  recordHash : String
  siblings : List (String × Bool)

def forensicInclusionProofs (chain records : List (ForensicRecord String)) :
    List InclusionProof :=
  records.filterMap fun rec => (forensicIndexById chain rec.id).map fun chainIndex =>
    ⟨rec.id, chainIndex, rec.hash, forensicMerkleProof valueId chain chainIndex⟩

/-- A hash and its siblings, folded to a root. -/
abbrev foldProof (hash : String) (proof : List (String × Bool)) : String :=
  MerkleTree.climb (combined valueId) hash proof

/-- The pairs that `merkleLoop` combines. -/
def passPairs : List String → List (String × String)
  | left :: right :: rest => (left, right) :: passPairs rest
  | _ => []

def loopPairs (hashes : List String) : List (String × String) :=
  if 1 < hashes.length then passPairs hashes ++ loopPairs (combinePass valueId hashes) else []
termination_by hashes.length
decreasing_by
  rw [combinePass_length]
  omega

end Definitions

section Folding
variable (valueId : Bytes → ValueId) {hashes : List String} {hash : String} {p : ProofPass}
  {idx i : ℕ}

theorem proofPass_passed (h : idx < i) :
    (proofPass valueId idx i hashes p).proof = p.proof ∧
      (proofPass valueId idx i hashes p).newIdx = p.newIdx := by
  fun_induction proofPass valueId idx i hashes p with
  | case1 i p left right rest next ih =>
    rw [if_neg h.ne', if_neg (Nat.lt_succ_of_lt h).ne'] at ih
    simpa only [if_neg h.ne', if_neg (Nat.lt_succ_of_lt h).ne'] using
      ih (Nat.lt_add_right 2 h)
  | case2 i p last => exact ⟨rfl, if_neg h.ne'⟩
  | case3 i p => exact ⟨rfl, rfl⟩

/-- A pass takes the hash at the index, with its sibling if it has one, to the new index. -/
theorem proofPass_hit (hi : i ≤ idx) (hget : hashes[idx - i]? = some hash) :
    ∃ steps, (proofPass valueId idx i hashes p).proof = p.proof ++ steps ∧
      (proofPass valueId idx i hashes p).next[(proofPass valueId idx i hashes p).newIdx]? =
        some (foldProof valueId hash steps) := by
  induction hashes using List.twoStepInduction generalizing i p with
  | nil => simp at hget
  | singleton last =>
    have hzero : idx - i = 0 := by simpa using (List.getElem?_eq_some_iff.mp hget).1
    obtain rfl : last = hash := by simpa [hzero] using hget
    have heq : i = idx := by omega
    refine ⟨[], (List.append_nil _).symm, ?_⟩
    simp [proofPass, heq, foldProof, MerkleTree.climb]
  | cons_cons left right rest ih _ =>
    rw [proofPass]
    have hat : ∀ q : ProofPass, q.next = p.next ++ [combined valueId left right] →
        q.newIdx = p.next.length → idx < i + 2 →
        (proofPass valueId idx (i + 2) rest q).next[
          (proofPass valueId idx (i + 2) rest q).newIdx]? =
            some (combined valueId left right) := by
      intro q hnext hnew hidx
      rw [proofPass_next, (proofPass_passed valueId hidx).2, hnext, hnew]
      simp
    by_cases hleft : i = idx
    · obtain rfl : left = hash := by simpa [hleft] using hget
      refine ⟨[(right, true)], ?_, ?_⟩
      · simp only [if_pos hleft]
        exact (proofPass_passed valueId (by omega)).1
      · simp only [if_pos hleft]
        exact hat _ rfl rfl (by omega)
    · by_cases hright : i + 1 = idx
      · have hone : idx - i = 1 := by omega
        obtain rfl : right = hash := by simpa [hone] using hget
        refine ⟨[(left, false)], ?_, ?_⟩
        · simp only [if_neg hleft, if_pos hright]
          exact (proofPass_passed valueId (by omega)).1
        · simp only [if_neg hleft, if_pos hright]
          exact hat _ rfl rfl (by omega)
      · have hsub : idx - i = idx - (i + 2) + 2 := by omega
        rw [hsub] at hget
        simp only [if_neg hleft, if_neg hright]
        exact ih (by omega) hget

theorem proofLoop_folds (proof : List (String × Bool)) (hget : hashes[idx]? = some hash) :
    ∃ steps, proofLoop valueId hashes idx proof = proof ++ steps ∧
      merkleLoop valueId hashes = some (foldProof valueId hash steps) := by
  fun_induction proofLoop valueId hashes idx proof generalizing hash with
  | case1 hashes idx proof hlong pass =>
    rename_i ih
    obtain ⟨steps, hproof, hnew⟩ := proofPass_hit valueId (p := ⟨[], proof, 0⟩)
      (Nat.zero_le idx) hget
    obtain ⟨more, hmore, hroot⟩ := ih hnew
    refine ⟨steps ++ more, ?_, ?_⟩
    · rw [hmore, hproof, List.append_assoc]
    · rw [merkleLoop, if_pos hlong, foldProof, MerkleTree.climb_append]
      rwa [proofPass_next, List.nil_append] at hroot
  | case2 hashes idx proof hshort =>
    refine ⟨[], (List.append_nil _).symm, ?_⟩
    obtain ⟨last, rfl⟩ : ∃ last, hashes = [last] := by
      refine List.length_eq_one_iff.mp ?_
      have hlt := (List.getElem?_eq_some_iff.mp hget).1
      omega
    obtain rfl : idx = 0 := by
      have hlt := (List.getElem?_eq_some_iff.mp hget).1
      simpa using hlt
    rw [merkleLoop, if_neg hshort]
    exact hget

end Folding

section Soundness
variable {valueId : Bytes → ValueId}

theorem valueIdToHex_length (id : ValueId) : (valueIdToHex id).length = 32 := by
  have hsum : ∀ bytes : Bytes, (bytes.flatMap hexByte).length = 2 * bytes.length := by
    intro bytes
    induction bytes with
    | nil => rfl
    | cons b bytes ih =>
      rw [List.flatMap_cons, List.length_append, ih, List.length_cons, hexByte]
      simp only [List.length_cons, List.length_nil]
      omega
  rw [valueIdToHex, String.length_ofList, hsum, id.property]

theorem colon_notMem_toHex (id : ValueId) : ':' ∉ (valueIdToHex id).toList := by
  have hdigit : ∀ n < 16, ':' ≠ hexDigit n := by decide
  rw [valueIdToHex, String.toList_ofList]
  intro hmem
  obtain ⟨b, -, hb⟩ := List.mem_flatMap.mp hmem
  have hlt := b.toNat_lt
  rcases List.mem_pair.mp hb with hb | hb
  · exact hdigit _ (by omega) hb
  · exact hdigit _ (Nat.mod_lt _ (by decide)) hb

/-- A pair without colons can be told from its text. -/
theorem pairText_injective {p q : String × String} (hleft : ':' ∉ q.1.toList)
    (hright : ':' ∉ q.2.toList) (h : pairText p = pairText q) : p = q := by
  have hchars := Encryption.utf8_injective h
  simp only [String.toList_append] at hchars
  rw [List.append_assoc, List.append_assoc] at hchars
  obtain ⟨hfirst, -, hsecond⟩ := (List.append_cons_inj_of_notMem hleft hright).mp hchars.symm
  exact Prod.ext (String.toList_inj.mp hfirst.symm) (String.toList_inj.mp hsecond.symm)

theorem combinePass_level (ts : List (MerkleTree String)) :
    combinePass valueId (ts.map (·.value (combined valueId))) =
      (MerkleTree.level ts).map (·.value (combined valueId)) := by
  induction ts using List.twoStepInduction with
  | nil => rfl
  | singleton t => rfl
  | cons_cons left right rest ih _ =>
    simp only [List.map_cons, combinePass, MerkleTree.level, ih, MerkleTree.value]

theorem level_pairs {ts : List (MerkleTree String)} {t : MerkleTree String}
    (ht : t ∈ MerkleTree.level ts) {q : String × String}
    (hq : q ∈ t.pairs (combined valueId)) :
    q ∈ passPairs (ts.map (·.value (combined valueId))) ∨
      ∃ u ∈ ts, q ∈ u.pairs (combined valueId) := by
  induction ts using List.twoStepInduction with
  | nil => cases ht
  | singleton u => exact Or.inr ⟨t, ht, hq⟩
  | cons_cons left right rest ih _ =>
    rw [MerkleTree.level, List.mem_cons] at ht
    simp only [List.map_cons, passPairs, List.mem_cons]
    rcases ht with rfl | ht
    · rw [MerkleTree.pairs, List.mem_cons, List.mem_append] at hq
      rcases hq with rfl | hq | hq
      · exact Or.inl (Or.inl rfl)
      · exact Or.inr ⟨left, Or.inl rfl, hq⟩
      · exact Or.inr ⟨right, Or.inr (Or.inl rfl), hq⟩
    · rcases ih ht with hpass | ⟨u, hu, hq⟩
      · exact Or.inl (Or.inr hpass)
      · exact Or.inr ⟨u, Or.inr (Or.inr hu), hq⟩

/-- The root is the value of a tree over the hashes. -/
theorem exists_tree {ts : List (MerkleTree String)} {root : String}
    (h : merkleLoop valueId (ts.map (·.value (combined valueId))) = some root) :
    ∃ t : MerkleTree String, t.value (combined valueId) = root ∧
      t.leaves = ts.flatMap MerkleTree.leaves ∧ ∀ q ∈ t.pairs (combined valueId),
        q ∈ loopPairs valueId (ts.map (·.value (combined valueId))) ∨
          ∃ u ∈ ts, q ∈ u.pairs (combined valueId) := by
  generalize hhashes : ts.map (·.value (combined valueId)) = hashes at h
  induction hashes using merkleLoop.induct valueId generalizing ts with
  | case1 hashes hlong ih =>
    subst hhashes
    rw [merkleLoop, if_pos hlong] at h
    obtain ⟨t, hvalue, hleaves, hpairs⟩ := ih (combinePass_level ts).symm h
    refine ⟨t, hvalue, hleaves.trans (MerkleTree.level_leaves ts), fun q hq => ?_⟩
    rw [loopPairs, if_pos hlong, List.mem_append]
    rcases hpairs q hq with hloop | ⟨u, hu, hq⟩
    · exact Or.inl (Or.inr hloop)
    · exact (level_pairs hu hq).imp_left Or.inl
  | case2 hashes hshort =>
    rw [merkleLoop, if_neg hshort] at h
    obtain ⟨t, rfl⟩ : ∃ t, ts = [t] := by
      rw [← List.length_eq_one_iff]
      rcases ts with _ | ⟨t, _ | ⟨u, ts⟩⟩
      · rw [← hhashes] at h
        cases h
      · rfl
      · rw [← hhashes] at hshort
        simp at hshort
    rw [← hhashes] at h
    exact ⟨t, Option.some.inj h, (List.append_nil _).symm,
      fun q hq => Or.inr ⟨t, List.mem_singleton_self t, hq⟩⟩

theorem merkleRoot_eq {records : List (ForensicRecord String)} {i : ℕ}
    {rec : ForensicRecord String} (hrec : records[i]? = some rec) :
    forensicMerkleRoot valueId records =
      some (foldProof valueId rec.hash (forensicMerkleProof valueId records i)) := by
  have hne : records ≠ [] := by
    rintro rfl
    cases hrec
  have hlt : ¬ records.length ≤ i := not_le.mpr (List.getElem?_eq_some_iff.mp hrec).1
  have hget : (records.map (·.hash))[i]? = some rec.hash := by rw [List.getElem?_map, hrec]; rfl
  obtain ⟨steps, hproof, hfold⟩ := proofLoop_folds valueId [] hget
  rw [forensicMerkleRoot, if_neg hne, hfold, forensicMerkleProof, if_neg (by simp [hne, hlt]),
    hproof, List.nil_append]

/-- Every record has a proof that folds to the root. Where the hashes have no colons and another
length than inner nodes, and the numbering of the combined texts has no collision, nothing else of
such a length folds to the root. -/
theorem merkle_inclusion_proofs (valueId : Bytes → ValueId)
    (records : List (ForensicRecord String)) :
    (∀ (i : ℕ) (rec : ForensicRecord String), records[i]? = some rec →
      forensicMerkleRoot valueId records =
        some (foldProof valueId rec.hash (forensicMerkleProof valueId records i))) ∧
      ∀ (hash : String) (proof : List (String × Bool)), hash.length ≠ 32 →
        (∀ rec ∈ records, rec.hash.length ≠ 32 ∧ ':' ∉ rec.hash.toList) →
        Set.InjOn valueId (Set.image pairText {p | p ∈ loopPairs valueId (records.map (·.hash)) ++
          MerkleTree.climbed (combined valueId) hash proof}) →
        forensicMerkleRoot valueId records = some (foldProof valueId hash proof) →
        hash ∈ records.map (·.hash) := by
  refine ⟨fun i rec hrec => merkleRoot_eq hrec, fun hash proof hlen hrecords hinj hroot => ?_⟩
  have hne : records ≠ [] := by
    rintro rfl
    cases hroot
  rw [forensicMerkleRoot, if_neg hne] at hroot
  let ts := records.map fun rec => MerkleTree.leaf rec.hash
  have hvalues : ts.map (·.value (combined valueId)) = records.map (·.hash) := by
    rw [List.map_map]
    rfl
  have hts : ts.flatMap MerkleTree.leaves = records.map (·.hash) := by
    rw [List.flatMap_map]
    exact List.flatMap_pure_eq_map _ records
  rw [← hvalues] at hroot hinj
  obtain ⟨t, hvalue, hleaves, hpairs⟩ := exists_tree hroot
  have hloop : ∀ q ∈ t.pairs (combined valueId),
      q ∈ loopPairs valueId (ts.map (·.value (combined valueId))) := by
    intro q hq
    rcases hpairs q hq with hloop | ⟨u, hu, hq⟩
    · exact hloop
    · obtain ⟨rec, -, rfl⟩ := List.mem_map.mp hu
      cases hq
  rw [← hts, ← hleaves]
  have hrecord : ∀ b ∈ t.leaves, b.length ≠ 32 ∧ ':' ∉ b.toList := by
    intro b hb
    rw [hleaves, hts] at hb
    obtain ⟨rec, hrec, rfl⟩ := List.mem_map.mp hb
    exact hrecords rec hrec
  refine MerkleTree.mem_leaves_of_climb (P := fun b => b.length ≠ 32)
    (fun a b => not_not.mpr (valueIdToHex_length _)) hlen t (fun b hb => (hrecord b hb).1)
    (fun p hp q hq heq => ?_) hvalue.symm
  have hcolons := MerkleTree.pairs_of_leaves (P := fun b => ':' ∉ b.toList)
    (fun a b => colon_notMem_toHex _) t (fun b hb => (hrecord b hb).2) q hq
  refine pairText_injective hcolons.1 hcolons.2 (hinj ?_ ?_ (valueIdToHex_injective heq))
  · exact ⟨p, List.mem_append_right _ hp, rfl⟩
  · exact ⟨q, List.mem_append_left _ (hloop q hq), rfl⟩

/-- A listed proof folds the hash of the chain's first record with that id to the root. -/
theorem inclusion_proofs_fold {chain records : List (ForensicRecord String)} {p : InclusionProof}
    (hp : p ∈ forensicInclusionProofs valueId chain records) :
    ∃ rec, chain[p.chainIndex]? = some rec ∧ rec.id = p.recordId ∧
      forensicMerkleRoot valueId chain = some (foldProof valueId rec.hash p.siblings) := by
  obtain ⟨wanted, -, hp⟩ := List.mem_filterMap.mp hp
  obtain ⟨chainIndex, hindex, rfl⟩ := Option.map_eq_some_iff.mp hp
  obtain ⟨hlt, hid, -⟩ := List.findIdx?_eq_some_iff_getElem.mp hindex
  have hget := List.getElem?_eq_getElem hlt
  exact ⟨_, hget, beq_iff_eq.mp hid, merkleRoot_eq hget⟩

end Soundness

section Sample

/-- The last sixteen bytes. -/
def sampleId (bytes : Bytes) : ValueId :=
  ⟨(List.replicate 16 0 ++ bytes).drop bytes.length, by
    rw [List.length_drop, List.length_append, List.length_replicate, Nat.add_sub_cancel]⟩

def hashedRecord (hash : String) : ForensicRecord String :=
  ⟨⟨1, 5, "app", "users", "insert", none, 1⟩, "", hash⟩

theorem merkle_inclusion_proofs_sample :
    "b" ∈ ([hashedRecord "a", hashedRecord "b"].map (·.hash)) := by
  have hloop : loopPairs sampleId ["a", "b"] = [("a", "b")] := by
    simp [loopPairs, passPairs, combinePass]
  refine (merkle_inclusion_proofs sampleId [hashedRecord "a", hashedRecord "b"]).2 "b"
    [("a", false)] (by decide) (by decide) ?_ ?_
  · simp [hloop, hashedRecord, MerkleTree.climbed, MerkleTree.pairUp]
  · simp [forensicMerkleRoot, merkleLoop, combinePass, hashedRecord, foldProof, MerkleTree.climb,
      MerkleTree.pairUp]

/-- Hashes of forty characters, the third with a colon after seven of them. -/
def colonHashes : List String := [
  "0000000000000000000000000000000000000000",
  "1111111111111111111111111111111111111111",
  "2222222:22222222222222222222222222222222"]

def innerHash : String := "31313131313131313131313131313131"

theorem loop_of_three (valueId : Bytes → ValueId) (a b c : String) :
    merkleLoop valueId [a, b, c] = some (combined valueId (combined valueId a b) c) ∧
      loopPairs valueId [a, b, c] = [(a, b), (combined valueId a b, c)] := by
  constructor
  · simp [merkleLoop, combinePass]
  · simp [loopPairs, passPairs, combinePass]

/-- The inner node and the seven characters before the colon are taken for one hash of forty
characters, which no record has. -/
theorem colon_forges_a_leaf :
    let records := colonHashes.map hashedRecord
    let hash := innerHash ++ ":2222222"
    let proof := [("22222222222222222222222222222222", true)]
    (∀ rec ∈ records, rec.hash.length = 40) ∧ hash.length = 40 ∧
      Set.InjOn sampleId (Set.image pairText {p | p ∈ loopPairs sampleId (records.map (·.hash)) ++
        MerkleTree.climbed (combined sampleId) hash proof}) ∧
      forensicMerkleRoot sampleId records = some (foldProof sampleId hash proof) ∧
      hash ∉ records.map (·.hash) := by
  intro records hash proof
  have hinner : combined sampleId "0000000000000000000000000000000000000000"
      "1111111111111111111111111111111111111111" = innerHash := by decide +kernel
  have htext : pairText (hash, "22222222222222222222222222222222") =
      pairText (innerHash, "2222222:22222222222222222222222222222222") := by decide +kernel
  have hother : sampleId (pairText ("0000000000000000000000000000000000000000",
      "1111111111111111111111111111111111111111")) ≠
      sampleId (pairText (innerHash, "2222222:22222222222222222222222222222222")) := by
    decide +kernel
  have hhashes : records.map (·.hash) = colonHashes := rfl
  obtain ⟨hroot, hpairs⟩ := loop_of_three sampleId "0000000000000000000000000000000000000000"
    "1111111111111111111111111111111111111111" "2222222:22222222222222222222222222222222"
  rw [hinner] at hroot hpairs
  refine ⟨by decide +kernel, by decide +kernel, ?_, ?_, ?_⟩
  · rw [hhashes, colonHashes, hpairs]
    rintro _ ⟨p, hp, rfl⟩ _ ⟨q, hq, rfl⟩ heq
    simp only [proof, MerkleTree.climbed, MerkleTree.pairUp, if_true, List.cons_append,
      List.nil_append, Set.mem_ofPred_eq, List.mem_cons, List.not_mem_nil, or_false] at hp hq
    rcases hp with rfl | rfl | rfl <;> rcases hq with rfl | rfl | rfl
    · rfl
    · exact absurd heq hother
    · exact absurd (htext ▸ heq) hother
    · exact absurd heq.symm hother
    · rfl
    · exact htext.symm
    · exact absurd (htext ▸ heq).symm hother
    · exact htext
    · rfl
  · change merkleLoop sampleId colonHashes =
      some (combined sampleId hash "22222222222222222222222222222222")
    rw [colonHashes, hroot, combined, combined, htext]
  · rw [hhashes]
    decide +kernel

end Sample

end SkeinDB.Forensic
