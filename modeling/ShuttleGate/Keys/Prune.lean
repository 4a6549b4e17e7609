import ShuttleGate.Keys.Tunnel
import ShuttleGate.State.Outcome

/-! # Pruning is exact

The names that `prune_orphaned_peers` returns are those of the undeclared peers, and exactly their
directories are gone. -/

namespace ShuttleGate

open Fs Effect Os Files State

namespace Keys

section
variable {config : ProjectConfig} {paths : InstancePaths} {t u : Tree} {names : List String}

/-- What is left of the data when the undeclared peers are gone. -/
structure Pruned (config : ProjectConfig) (f f' : Data) : Prop where
  gone : ∀ l, Orphaned config l → f' l = none
  kept : ∀ l, ¬ Orphaned config l → f' l = f l

/-- What the mutator has done to a copy of the content. -/
theorem pruneIn_returns {D : Path} {t₁ t₂ : Tree} (hcopied : dataAt t₁ D = content paths t)
    (h : (pruneIn config (paths.withData D)).Returns machine t₁ (.ok names) t₂) :
    Pruned config (content paths t) (dataAt t₂ D) ∧ Orphans config (content paths t) names := by
  obtain ⟨hgone, hkept, hnames⟩ := (pruneIn_yields config paths (there_of_copied hcopied)).returns h
  rw [hcopied] at hkept hnames
  exact ⟨⟨hgone, hkept⟩, hnames⟩

/-- Where there is no undeclared peer, there is nothing below one. -/
theorem Pruned.of_nil {D : Path} {t₁ : Tree} (hcopied : dataAt t₁ D = content paths t)
    (h : Orphans config (content paths t) []) : Pruned config (content paths t) (content paths t) := by
  refine ⟨fun l hl => ?_, fun _ _ => rfl⟩
  obtain ⟨name, hname, k, rfl⟩ := hl
  have hnone : content paths t (peerAt name) = none := by
    by_contra hne
    exact List.not_mem_nil ((h.mem name).mpr ⟨hname, hne⟩)
  rw [← hcopied] at hnone ⊢
  rw [dataAt, List.append_assoc]
  exact Tree.get_below_eq_none hnone k

/-- A peer's directory is neither the top nor a manifest of the state. -/
theorem orphaned_concat {l : Path} {n : String} (h : Orphaned config (l ++ [n])) : n = "peers" := by
  obtain ⟨name, -, k, hk⟩ := h
  have hlast := congrArg List.getLast? hk
  simpa [peerAt] using hlast.symm

/-- A publication has pruned the content, and something was pruned. -/
theorem prune_published (h : Published (pruneCall config) paths t names uid u) :
    names ≠ [] ∧ Orphans config (content paths t) names ∧
      Pruned config (content paths t) (content paths u) := by
  obtain ⟨t₁, t₂, t₃, hs, hnew, hsame⟩ := h.content
  obtain ⟨hpruned, hnames⟩ := pruneIn_returns hs.copied hs.mutated
  have hcontent (l : Path) (n : String) (hn : n ≠ manifestFile) :
      content paths u (l ++ [n]) = dataAt t₂ (stagingPath paths uid) (l ++ [n]) := by
    refine (hnew l n hn).trans (hsame _ (by simp) ?_)
    rintro ⟨o, ho, -⟩
    cases ho
  refine ⟨?_, hnames, fun l hl => ?_, fun l hl => ?_⟩
  · rintro rfl
    cases hs.accepted
  · rcases List.eq_nil_or_concat l with rfl | ⟨k, n, rfl⟩
    · obtain ⟨name, -, hs⟩ := hl
      exact absurd (List.suffix_nil.mp hs) (List.cons_ne_nil _ _)
    rw [List.concat_eq_append] at hl ⊢
    obtain rfl := orphaned_concat hl
    rw [hcontent k "peers" (by decide)]
    exact hpruned.gone _ hl
  · rcases List.eq_nil_or_concat l with rfl | ⟨k, n, rfl⟩
    · exact (content_nil paths u).trans (content_nil paths t).symm
    rw [List.concat_eq_append] at hl ⊢
    by_cases hn : n = manifestFile
    · subst hn
      exact (content_manifest paths u k).trans (content_manifest paths t k).symm
    · rw [hcontent k n hn]
      exact hpruned.kept _ hl

/-- What a prune that has returned has come to. -/
theorem prune_outcome (h : (pruneOrphanedPeers config paths).Returns machine t (.ok names) u) :
    Orphans config (content paths t) names ∧ Pruned config (content paths t) (content paths u) ∧
      (names = [] → Unchanged paths t u) := by
  rcases (run_outcome (pruneCall config) paths t).returns h with ⟨_, ho, _⟩ | ⟨hu, hdeclined⟩ | ⟨hp, _⟩
  · cases ho
  · obtain ⟨_, _, _, hcopied, hmutated, accept, haccept, hempty⟩ := hdeclined
    cases haccept
    obtain rfl : names = [] := by simpa using hempty
    have hnames := (pruneIn_returns hcopied hmutated).2
    refine ⟨hnames, ?_, fun _ => hu⟩
    rw [hu.content]
    exact .of_nil hcopied hnames
  · obtain ⟨hne, hnames, hpruned⟩ := prune_published hp
    exact ⟨hnames, hpruned, fun hnil => absurd hnil hne⟩

theorem Orphans.of_pruned {f f' : Data} (hpruned : Pruned config f f') (h : Orphans config f' names) :
    names = [] := by
  refine List.eq_nil_iff_forall_not_mem.mpr fun n hn => ?_
  obtain ⟨hname, hthere⟩ := (h.mem n).mp hn
  exact hthere (hpruned.gone _ ⟨n, hname, List.suffix_rfl⟩)

end

/-! ## An example -/

/-- The keys of the server in the legacy state, and a peer that is not declared any more. -/
def orphanTree : Tree := .ofEntries
  [([], .dir 0o755), (["state"], .dir 0o700), (["peers", "state"], .dir 0o700),
    (["old", "peers", "state"], .dir 0o700), (["server", "state"], .dir 0o700),
    (["private.key", "server", "state"], keyFile 0o600 examplePair.priv),
    (["public.key", "server", "state"], keyFile 0o644 examplePair.pub)] (by decide)

theorem orphan_pruned : ∃ u, (pruneOrphanedPeers exampleProject examplePaths).Returns machine orphanTree
    (.ok ["old"]) u := by
  obtain ⟨r, u, hr, htest⟩ := Prog.exists_returns (s := orphanTree)
    (p := pruneOrphanedPeers exampleProject examplePaths) exampleHost.respond_answers 150 (fun r _ =>
      r.toOption == some ["old"]) (by
      simp only [pruneOrphanedPeers, mutateState, mutateLocked, stage, publish, finish, verify,
        activeGeneration, readManifest, loadJson_eq, atomicWriteJson, atomicWrite, orphanTree,
        encodeUtf8_jsonText]
      decide +kernel)
  cases r with
  | error e => cases htest
  | ok names =>
    obtain rfl : names = ["old"] := by simpa [Except.toOption] using htest
    exact ⟨u, Prog.Returns.mono reliable_refines hr⟩

end Keys
end ShuttleGate
