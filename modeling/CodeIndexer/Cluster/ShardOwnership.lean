import CodeIndexer.Lib.PyText
import CodeIndexer.Lib.Ranking

/-!
# Shard ownership (`server/services/shard_ownership.py`)

The owners of an alias are the nodes of the highest weights, ties going by the node id, so that no two nodes weigh the
same. A node is an owner if fewer nodes than there are owners weigh more (`mem_computeOwners`); a node that comes or
goes changes that number by one at most.
-/

namespace CodeIndexer.Sharding

open PyText Ranking List

def weight (hrwScore : Str → Str → ℕ) (aliasName node : Str) : ℕ ×ₗ Str := toLex (hrwScore aliasName node, node)

def computeOwners (hrwScore : Str → Str → ℕ) (aliasName : Str) (nodeIds : List Str) (replicas : ℤ) : List Str :=
  if nodeIds = [] then []
  else (ranked (weight hrwScore aliasName) nodeIds).take (max 1 (min replicas nodeIds.length)).toNat

structure ShardOwnership where
  nodeId : Str
  replicas : ℤ
  refreshSeconds : ℚ
  cachedNodes : List Str
  cachedAt : ℚ

namespace ShardOwnership

/-- The answer of the provider is `none` where it raises. -/
def getNodes (o : ShardOwnership) (provider : Option (List Str)) (now : ℚ) : List Str × ShardOwnership :=
  if o.cachedNodes ≠ [] ∧ now - o.cachedAt < o.refreshSeconds then (o.cachedNodes, o)
  else
    let nodes := provider.getD []
    let nodes := if o.nodeId ≠ [] ∧ o.nodeId ∉ nodes then nodes ++ [o.nodeId] else nodes
    (nodes, { o with cachedNodes := nodes, cachedAt := now })

def owns (hrwScore : Str → Str → ℕ) (o : ShardOwnership) (provider : Option (List Str)) (now : ℚ) (aliasName : Str) :
    Bool :=
  if aliasName = [] then true
  else
    let nodes := (o.getNodes provider now).1
    if nodes.length ≤ 1 then true else o.nodeId ∈ computeOwners hrwScore aliasName nodes (max 1 o.replicas)

end ShardOwnership

/-! ### Owners by the number of heavier nodes -/

section Owners
variable {hrwScore : Str → Str → ℕ} {aliasName : Str} {nodes nodes' : List Str} {n x : Str} {replicas : ℤ}

theorem weight_injective (hrwScore : Str → Str → ℕ) (aliasName : Str) : (weight hrwScore aliasName).Injective := by
  intro a b hab
  exact (Prod.mk.inj (toLex.injective hab)).2

def want (replicas : ℤ) (n : ℕ) : ℕ := min (max 1 replicas).toNat n

theorem computeOwners_eq (hrwScore : Str → Str → ℕ) (aliasName : Str) (nodes : List Str) (replicas : ℤ) :
    computeOwners hrwScore aliasName nodes replicas =
      (ranked (weight hrwScore aliasName) nodes).take (want replicas nodes.length) := by
  rw [computeOwners]
  split_ifs with hnil
  · rw [hnil, want, length_nil, Nat.min_zero, take_zero]
  · have hpos : 0 < nodes.length := length_pos_iff.mpr hnil
    have hwant : (max 1 (min replicas nodes.length)).toNat = want replicas nodes.length := by
      rw [want]
      omega
    rw [hwant]

theorem mem_computeOwners (hnodup : nodes.Nodup) : x ∈ computeOwners hrwScore aliasName nodes replicas ↔
    x ∈ nodes ∧ heavier (weight hrwScore aliasName) nodes x < want replicas nodes.length := by
  rw [computeOwners_eq, mem_take_ranked (hnodup.map (weight_injective _ _))]

theorem computeOwners_perm (hnodup : nodes.Nodup) (h : nodes'.Perm nodes) :
    computeOwners hrwScore aliasName nodes' replicas = computeOwners hrwScore aliasName nodes replicas := by
  rw [computeOwners_eq, computeOwners_eq, ranked_eq_of_perm (hnodup.map (weight_injective _ _)) h, h.length_eq]

theorem length_computeOwners :
    (computeOwners hrwScore aliasName nodes replicas).length = want replicas nodes.length := by
  rw [computeOwners_eq, length_take, (ranked_perm _ nodes).length_eq, want]
  omega

theorem nodup_computeOwners (hnodup : nodes.Nodup) : (computeOwners hrwScore aliasName nodes replicas).Nodup := by
  rw [computeOwners_eq]
  exact ((ranked_perm _ nodes).nodup_iff.mpr hnodup).sublist (take_sublist _ _)

/-- `old` and `new` are the owners without and with the node `n`. -/
structure Disturbs (n : Str) (old new : List Str) : Prop where
  newcomer : ∀ x ∈ new, x = n ∨ x ∈ old
  oneLeaves : ∀ x ∈ old, ∀ y ∈ old, x ∉ new → y ∉ new → x = y
  bystander : n ∉ new → new = old

theorem disturbs (hnodup : (n :: nodes).Nodup) : Disturbs n (computeOwners hrwScore aliasName nodes replicas)
    (computeOwners hrwScore aliasName (n :: nodes) replicas) where
  newcomer x hx := by
    rw [mem_computeOwners hnodup, mem_cons, length_cons, want] at hx
    rw [mem_computeOwners hnodup.of_cons, want]
    obtain ⟨rfl | hx, hlt⟩ := hx
    · exact .inl rfl
    · have hle := le_heavier_cons (weight hrwScore aliasName) n nodes x
      have hlen := heavier_lt_length (weight hrwScore aliasName) hx
      exact .inr ⟨hx, by omega⟩
  oneLeaves x hx y hy hxout hyout := by
    rw [mem_computeOwners hnodup.of_cons, want] at hx hy
    rw [mem_computeOwners hnodup, mem_cons, length_cons, want] at hxout hyout
    have hxle := heavier_cons_le (weight hrwScore aliasName) n nodes x
    have hyle := heavier_cons_le (weight hrwScore aliasName) n nodes y
    refine heavier_injective (hnodup.of_cons.map (weight_injective hrwScore aliasName)) hx.1 hy.1 ?_
    simp only [hx.1, hy.1, or_true, true_and] at hxout hyout
    omega
  bystander hn := by
    have hmem : n ∈ computeOwners hrwScore aliasName (n :: nodes) replicas ↔ _ := mem_computeOwners hnodup
    have hlen := heavier_lt_length (weight hrwScore aliasName) (mem_cons_self (a := n) (l := nodes))
    have hwant : want replicas (n :: nodes).length = want replicas nodes.length := by
      rw [hmem, want] at hn
      simp only [mem_cons_self, true_and, length_cons] at hn hlen
      simp only [want, length_cons]
      omega
    rw [computeOwners_eq, hwant] at hn
    rw [computeOwners_eq, computeOwners_eq, hwant, take_ranked_cons (hnodup.map (weight_injective _ _)) hn]

theorem countP_mem_computeOwners (hnodup : nodes.Nodup) :
    nodes.countP (· ∈ computeOwners hrwScore aliasName nodes replicas) = want replicas nodes.length := by
  have hfilter : (nodes.filter (· ∈ computeOwners hrwScore aliasName nodes replicas)).Perm
      (computeOwners hrwScore aliasName nodes replicas) := by
    refine (perm_ext_iff_of_nodup (hnodup.filter _) (nodup_computeOwners hnodup)).mpr fun x => ?_
    rw [mem_filter, decide_eq_true_iff, and_iff_right_iff_imp]
    exact fun hx => ((mem_computeOwners hnodup).mp hx).1
  rw [countP_eq_length_filter, hfilter.length_eq, length_computeOwners]

/-- What `owns` finds on a node that sees the live nodes in some order. -/
theorem owns_iff {o : ShardOwnership} {provider : Option (List Str)} {now : ℚ} (halias : aliasName ≠ [])
    (hnodup : nodes.Nodup) (hsees : (o.getNodes provider now).1.Perm nodes) (hmem : o.nodeId ∈ nodes) :
    o.owns hrwScore provider now aliasName = true ↔
      o.nodeId ∈ computeOwners hrwScore aliasName nodes (max 1 o.replicas) := by
  rw [ShardOwnership.owns, if_neg halias]
  dsimp only
  split_ifs with hone
  · have hlen := heavier_lt_length (weight hrwScore aliasName) hmem
    rw [hsees.length_eq] at hone
    rw [mem_computeOwners hnodup, want]
    exact iff_of_true rfl ⟨hmem, by omega⟩
  · rw [decide_eq_true_iff, computeOwners_perm hnodup hsees]

end Owners

/-- All nodes see the same live set, cached or as their providers answer now. -/
structure Ring (live : List Str) (replicas : ℤ) where
  node : Str → ShardOwnership
  provider : Str → Option (List Str)
  now : Str → ℚ
  nodeId : ∀ n ∈ live, (node n).nodeId = n
  replicas : ∀ n ∈ live, (node n).replicas = replicas
  sees : ∀ n ∈ live, ((node n).getNodes (provider n) (now n)).1.Perm live

theorem rendezvous (hrwScore : Str → Str → ℕ) (aliasName : Str) (replicas : ℤ) (live : List Str) (hnodup : live.Nodup) :
    (∀ nodes, nodes.Perm live →
      computeOwners hrwScore aliasName nodes replicas = computeOwners hrwScore aliasName live replicas) ∧
    (∀ n ∉ live, Disturbs n (computeOwners hrwScore aliasName live replicas)
      (computeOwners hrwScore aliasName (n :: live) replicas)) ∧
    (∀ n ∈ live, Disturbs n (computeOwners hrwScore aliasName (live.erase n) replicas)
      (computeOwners hrwScore aliasName live replicas)) ∧
    (aliasName ≠ [] → ∀ ring : Ring live replicas,
      live.countP (fun n => (ring.node n).owns hrwScore (ring.provider n) (ring.now n) aliasName) =
        min (max 1 replicas).toNat live.length) := by
  refine ⟨fun nodes h => computeOwners_perm hnodup h, fun n hn => disturbs (nodup_cons.mpr ⟨hn, hnodup⟩), ?_, ?_⟩
  · intro n hn
    have hperm := perm_cons_erase hn
    rw [computeOwners_perm (hperm.nodup_iff.mp hnodup) hperm]
    exact disturbs (hperm.nodup_iff.mp hnodup)
  · intro halias ring
    have howns : ∀ n ∈ live, (ring.node n).owns hrwScore (ring.provider n) (ring.now n) aliasName = true ↔
        decide (n ∈ computeOwners hrwScore aliasName live (max 1 replicas)) = true := by
      intro n hn
      have hnode := ring.nodeId n hn
      rw [owns_iff halias hnodup (ring.sees n hn) (hnode.symm ▸ hn), hnode, ring.replicas n hn, decide_eq_true_iff]
    rw [countP_congr howns, countP_mem_computeOwners hnodup, want, max_eq_right (le_max_left 1 replicas)]

/-- Two nodes: `a` asks its provider, which leaves `a` out, and `bb` has the nodes cached in another order. -/
def twoNodes : Ring ["a", "bb"] 1 where
  node n := if n = "a".toList then ⟨"a", 1, 30, [], 0⟩ else ⟨"bb", 1, 30, ["bb", "a"], 100⟩
  provider _ := some ["bb"]
  now _ := 110
  nodeId := by decide
  replicas := by decide
  sees := by decide +kernel

/-- The second node is of the higher weight, and there is one replica. -/
theorem rendezvous_two_nodes :
    computeOwners (fun _ n => n.length) "r" ["a".toList, "bb".toList] 1 = ["bb".toList] ∧
      Disturbs "c" ["bb"] (computeOwners (fun _ n => n.length) "r" ["c", "a", "bb"] 1) ∧
      ["a".toList, "bb".toList].countP (fun n => (twoNodes.node n).owns (fun _ n => n.length) (twoNodes.provider n)
        (twoNodes.now n) "r") = 1 := by
  have howners : computeOwners (fun _ n => n.length) "r" ["a".toList, "bb".toList] 1 = ["bb".toList] := by
    decide +kernel
  obtain ⟨-, hadd, -, hcount⟩ := rendezvous (fun _ n => n.length) "r" 1 ["a", "bb"] (by decide)
  have hadd := hadd "c" (by decide)
  rw [howners] at hadd
  exact ⟨howners, hadd, hcount (by decide) twoNodes⟩

end CodeIndexer.Sharding
