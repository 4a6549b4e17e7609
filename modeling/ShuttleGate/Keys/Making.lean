import ShuttleGate.Keys.Owners

/-! # What the key commands do to a generation

For each command the files it may write, and where it puts new keys: the private and the public key
of one run of `wg`. -/

namespace ShuttleGate

open Fs Effect Os Files State

namespace Keys

/-! ## Generated keys -/

/-- `wg pubkey` has printed the public key for the private key. -/
def Runner.Prints (runner : Runner) (priv pub : String) : Prop :=
  ∃ t r u, (runner.run ["wg", "pubkey"] (some (priv ++ "\n"))).Returns machine t (.ok r) u ∧
    strip r.stdout = pub

/-- A key pair of one run. -/
structure Generated (runner : Runner) (pair : KeyPair) : Prop where
  validPriv : Valid pair.priv
  validPub : Valid pair.pub
  prints : runner.Prints pair.priv pair.pub

section
variable {t : Tree} {runner : Runner}

theorem generatedKey_yields (runner : Runner) (command : String) (input : Option String)
    (label : String) (t : Tree) : (generatedKey runner command input label).Yields machine
      (fun key u => u = t ∧ Valid key ∧ ∃ r u, (runner.run ["wg", command] input).Returns machine t
        (.ok r) u ∧ strip r.stdout = key) t := by
  refine Prog.yields_bind ((Prog.yields_returns (runner.run ["wg", command] input) t).and_keeps
    (keeps_of_reads (runner.reads _ _) t) rfl |>.mono fun r u ⟨hr, hu⟩ => ?_)
  subst hu
  cases hkey : validateWireguardKey (strip r.stdout) label with
  | error e => exact Prog.yields_raise
  | ok key =>
    obtain ⟨rfl, hvalid⟩ := valid_of_accepted hkey
    exact Prog.yields_ret ⟨rfl, hvalid, r, u, hr, rfl⟩

theorem generateKeyPair_yields (runner : Runner) (t : Tree) :
    (generateKeyPair runner).Yields machine (fun pair u => u = t ∧ Generated runner pair) t := by
  refine Prog.yields_bind ((generatedKey_yields runner _ _ _ t).mono fun priv u ⟨hu, hpriv, _⟩ => ?_)
  subst hu
  refine Prog.yields_bind ((generatedKey_yields runner _ _ _ u).mono
    fun pub v ⟨hv, hpub, r, w, hr, hprints⟩ => ?_)
  subst hv
  exact Prog.yields_ret ⟨rfl, hpriv, hpub, _, r, w, hr, hprints⟩

theorem generatePresharedKey_yields (runner : Runner) (t : Tree) :
    (generatePresharedKey runner).Yields machine (fun key u => u = t ∧ Valid key) t :=
  (generatedKey_yields runner _ _ _ t).mono fun _ _ ⟨hu, hvalid, _⟩ => ⟨hu, hvalid⟩

end

/-! ## The files of an owner -/

/-- The names of the key files. -/
def Owner.keyFiles : Owner → List String
  | server => [privateKey, publicKey]
  | peer _ => [privateKey, publicKey, presharedKey]

/-- The names of what is made from the keys. -/
def phoneFiles : List String := [phoneConfig, fingerprintFile]

/-- Some of an owner's files. -/
def Of (o : Owner) (names : List String) (l : Path) : Prop := ∃ n ∈ names, l = n :: o.dir

@[simp] theorem of_file {o o' : Owner} {names : List String} {n : String} :
    Of o names (n :: o'.dir) ↔ o' = o ∧ n ∈ names := by
  constructor
  · rintro ⟨m, hm, heq⟩
    obtain ⟨rfl, rfl⟩ := file_inj.mp heq
    exact ⟨rfl, hm⟩
  · rintro ⟨rfl, hn⟩
    exact ⟨n, hn, rfl⟩

/-- The phone configuration and the fingerprint of one of the peers. -/
def PhoneOf (peers : List PeerConfig) (l : Path) : Prop :=
  ∃ peer ∈ peers, Of (.peer peer.name) phoneFiles l

/-- A key file is nothing derived. -/
theorem not_mem_phoneFiles {o : Owner} {n : String} (hn : n ∈ o.keyFiles) : n ∉ phoneFiles := by
  intro hphone
  cases o <;> simp only [Owner.keyFiles, phoneFiles, List.mem_cons, List.not_mem_nil, or_false] at hn hphone <;>
    rcases hn with rfl | rfl | rfl <;> revert hphone <;> decide

/-- Where there is a key, nothing derived is written. -/
theorem not_phoneOf_key {peers : List PeerConfig} {o : Owner} {n : String} (hn : n ∈ o.keyFiles) :
    ¬ PhoneOf peers (n :: o.dir) :=
  fun ⟨_, _, hl⟩ => not_mem_phoneFiles hn (of_file.mp hl).2

/-- A key file as it is written. -/
def keyFile (mode : Nat) (key : String) : Obj := .file mode (encodeUtf8 (key ++ "\n"))

/-- The key pair of an owner has been written. -/
structure NewPair (f : Data) (o : Owner) (pair : KeyPair) : Prop where
  priv : f (privateKey :: o.dir) = some (keyFile 0o600 pair.priv)
  pub : f (publicKey :: o.dir) = some (keyFile 0o644 pair.pub)

/-- Every key pair is the old one, one of one run, or gone. -/
def Renews (runner : Option Runner) (f f' : Data) : Prop :=
  ∀ o : Owner, (∀ n ∈ [privateKey, publicKey], f' (n :: o.dir) = f (n :: o.dir)) ∨
    (∃ r ∈ runner, ∃ pair, Generated r pair ∧ NewPair f' o pair) ∨ f' (privateKey :: o.dir) = none

section
variable {runner : Option Runner} {f f' f'' : Data} {o : Owner}

theorem Renews.refl : Renews runner f f := fun _ => .inl fun _ _ => rfl

theorem Renews.trans (h : Renews runner f f') (h' : Renews runner f' f'') : Renews runner f f'' := by
  intro o
  rcases h' o with hsame | hnew
  · rcases h o with hsame' | ⟨r, hr, pair, hpair, hnew⟩ | hnone
    · exact .inl fun n hn => (hsame n hn).trans (hsame' n hn)
    · refine .inr (.inl ⟨r, hr, pair, hpair, ?_, ?_⟩)
      · exact (hsame _ (by simp)).trans hnew.priv
      · exact (hsame _ (by simp)).trans hnew.pub
    · exact .inr (.inr ((hsame _ (by simp)).trans hnone))
  · exact .inr hnew

theorem pair_keyFile {n : String} (hn : n ∈ [privateKey, publicKey]) (o : Owner) : n ∈ o.keyFiles := by
  cases o with
  | server => exact hn
  | peer _ => exact List.mem_append_left [presharedKey] hn

/-- Where no key is written, every pair is the old one. -/
theorem Changes.renews {P : Path → Prop} (h : Changes P f f')
    (hP : ∀ (o : Owner), ∀ n ∈ o.keyFiles, ¬ P (n :: o.dir)) : Renews runner f f' :=
  fun o => .inl fun n hn => h.file (hP o n (pair_keyFile hn o))

end

/-! ## Writing keys -/

section
variable {D : Path} {t : Tree}

theorem writeKey_yields (o : Owner) (n key : String) (mode : Nat) (hD : t.get D ≠ none) :
    (writeKey (o.dir ++ D) n key mode).Yields machine (fun _ u => u.get D ≠ none ∧
      dataAt u D (n :: o.dir) = some (keyFile mode key) ∧
        Changes (· = n :: o.dir) (dataAt t D) (dataAt u D)) t :=
  atomicWriteBytes_changes o n _ mode hD

/-- One more file of an owner. -/
theorem writeKey_next {f : Data} {names : List String} (o : Owner) {n : String} (hn : n ∈ names)
    (key : String) (mode : Nat) (hD : t.get D ≠ none) (h : Changes (Of o names) f (dataAt t D)) :
    (writeKey (o.dir ++ D) n key mode).Yields machine (fun _ u => u.get D ≠ none ∧
      dataAt u D (n :: o.dir) = some (keyFile mode key) ∧
      (∀ m, m ≠ n → dataAt u D (m :: o.dir) = dataAt t D (m :: o.dir)) ∧
      Changes (Of o names) f (dataAt u D)) t := by
  refine (writeKey_yields o n key mode hD).mono fun _ u ⟨hu, hfile, hchanges⟩ => ?_
  refine ⟨hu, hfile, fun m hm => hchanges.file fun he => hm (file_inj.mp he).1, h.trans ?_⟩
  exact hchanges.mono fun l hl => ⟨n, hn, hl⟩

/-! ## Rendering -/

/-- Only what is derived for the peers is written. -/
theorem renderPhoneConfigs_yields (config : ProjectConfig) (paths : InstancePaths)
    (peers : List PeerConfig) (hD : t.get D ≠ none) :
    (renderPhoneConfigs config (paths.withData D) peers).Yields machine (fun _ u => u.get D ≠ none ∧
      Changes (PhoneOf peers) (dataAt t D) (dataAt u D)) t := by
  refine Prog.yields_bind ((loadServer_yields _ t).mono fun server u ⟨hu, _⟩ => ?_)
  subst hu
  -- the peers that are left are among all
  refine (Prog.yields_forEach (fun rest v => v.get D ≠ none ∧ (∀ peer ∈ rest, peer ∈ peers) ∧
    Changes (PhoneOf peers) (dataAt u D) (dataAt v D)) (fun peer rest v ⟨hv, hrest, hchanges⟩ => ?_)
    peers u ⟨hD, fun _ => id, .refl⟩).mono fun _ v ⟨hv, _, hchanges⟩ => ⟨hv, hchanges⟩
  obtain ⟨hpeer, hrest⟩ := List.forall_mem_cons.mp hrest
  refine Prog.yields_bind ((phoneArtifacts_yields config _ peer server v).mono
    fun artifacts w ⟨hw, _⟩ => ?_)
  subst hw
  have hphone {n : String} (hn : n ∈ phoneFiles) (l : Path) (hl : l = n :: (Owner.peer peer.name).dir) :
      PhoneOf peers l := ⟨peer, hpeer, n, hn, hl⟩
  refine Prog.yields_bind ((atomicWriteBytes_changes (.peer peer.name) phoneConfig _ _ hv).mono
    fun _ x ⟨hx, _, hx'⟩ => ?_)
  refine (atomicWriteBytes_changes (.peer peer.name) fingerprintFile _ _ hx).mono
    fun _ y ⟨hy, _, hy'⟩ => ⟨hy, hrest, ?_⟩
  refine hchanges.trans ((hx'.mono (hphone ?_)).trans (hy'.mono (hphone ?_)))
  · simp [phoneFiles]
  · simp [phoneFiles]

/-! ## Rotation -/

/-- A peer gets new keys and what is derived from them. -/
theorem rotatePeerIn_yields (config : ProjectConfig) (runner : Runner) (peer : PeerConfig)
    (paths : InstancePaths) (hD : t.get D ≠ none) :
    (rotatePeerIn config runner peer (paths.withData D)).Yields machine (fun _ u =>
      Changes (Of (.peer peer.name) ((Owner.peer peer.name).keyFiles ++ phoneFiles))
        (dataAt t D) (dataAt u D) ∧ Renews runner (dataAt t D) (dataAt u D)) t := by
  refine Prog.yields_bind ((generateKeyPair_yields runner t).mono fun pair u ⟨hu, hpair⟩ => ?_)
  subst hu
  refine Prog.yields_bind ((generatePresharedKey_yields runner u).mono fun preshared v ⟨hv, _⟩ => ?_)
  subst hv
  have hkeys {n : String} (hn : n ∈ (Owner.peer peer.name).keyFiles) :
      n ∈ (Owner.peer peer.name).keyFiles ++ phoneFiles := List.mem_append_left _ hn
  refine Prog.yields_bind ((writeKey_next (.peer peer.name) (hkeys (n := publicKey) (by
    simp [Owner.keyFiles])) pair.pub 0o644 hD .refl).mono fun _ t₁ ⟨hD₁, hpub₁, _, h₁⟩ => ?_)
  refine Prog.yields_bind ((writeKey_next (.peer peer.name) (hkeys (n := presharedKey) (by
    simp [Owner.keyFiles])) preshared 0o600 hD₁ h₁).mono fun _ t₂ ⟨hD₂, _, hsame₂, h₂⟩ => ?_)
  refine Prog.yields_bind ((writeKey_next (.peer peer.name) (hkeys (n := privateKey) (by
    simp [Owner.keyFiles])) pair.priv 0o600 hD₂ h₂).mono fun _ t₃ ⟨hD₃, hpriv₃, hsame₃, h₃⟩ => ?_)
  refine (renderPhoneConfigs_yields config paths [peer] hD₃).mono fun _ t₄ ⟨_, h₄⟩ => ⟨h₃.trans ?_, ?_⟩
  · refine h₄.mono fun l ⟨peer', hpeer', n, hn, hl⟩ => ?_
    obtain rfl := List.mem_singleton.mp hpeer'
    exact ⟨n, List.mem_append_right _ hn, hl⟩
  -- rendering leaves the keys alone
  have hrendered : Renews runner (dataAt t₃ D) (dataAt t₄ D) :=
    h₄.renews fun o n hn => not_phoneOf_key hn
  refine Renews.trans (fun o => ?_) hrendered
  by_cases ho : o = .peer peer.name
  · subst ho
    refine .inr (.inl ⟨runner, rfl, pair, hpair, hpriv₃, ?_⟩)
    exact ((hsame₃ _ (by decide)).trans (hsame₂ _ (by decide))).trans hpub₁
  · exact .inl fun n _ => h₃.file fun hl => ho (of_file.mp hl).1

/-- The server gets new keys, and every declared peer what is derived from them. -/
theorem rotateServerIn_yields (config : ProjectConfig) (runner : Runner) (paths : InstancePaths)
    (hD : t.get D ≠ none) :
    (rotateServerIn config runner (paths.withData D)).Yields machine (fun _ u =>
      Changes (fun l => Of .server Owner.server.keyFiles l ∨ PhoneOf config.wireguard.peers l)
        (dataAt t D) (dataAt u D) ∧ Renews runner (dataAt t D) (dataAt u D)) t := by
  refine Prog.yields_bind ((generateKeyPair_yields runner t).mono fun pair u ⟨hu, hpair⟩ => ?_)
  subst hu
  refine Prog.yields_bind ((writeKey_next .server
    (by simp [Owner.keyFiles] : publicKey ∈ Owner.server.keyFiles) pair.pub 0o644 hD .refl).mono fun _ t₁ ⟨hD₁, hpub₁, _, h₁⟩ => ?_)
  refine Prog.yields_bind ((writeKey_next .server (n := privateKey) (by simp [Owner.keyFiles])
    pair.priv 0o600 hD₁ h₁).mono fun _ t₂ ⟨hD₂, hpriv₂, hsame₂, h₂⟩ => ?_)
  refine (renderPhoneConfigs_yields config paths _ hD₂).mono fun _ t₃ ⟨_, h₃⟩ => ⟨?_, ?_⟩
  · exact (h₂.mono fun l hl => .inl hl).trans (h₃.mono fun l hl => .inr hl)
  have hrendered : Renews runner (dataAt t₂ D) (dataAt t₃ D) :=
    h₃.renews fun o n hn => not_phoneOf_key hn
  refine Renews.trans (fun o => ?_) hrendered
  by_cases ho : o = .server
  · subst ho
    exact .inr (.inl ⟨runner, rfl, pair, hpair, hpriv₂, (hsame₂ _ (by decide)).trans hpub₁⟩)
  · exact .inl fun n _ => h₂.file fun hl => ho (of_file.mp hl).1

end

/-! ## Missing keys -/

/-- There is no key file of an owner, but for links that lead nowhere. -/
def Gone (f : Data) (o : Owner) : Prop :=
  ∀ n ∈ o.keyFiles, ∀ x, f (n :: o.dir) = some x → ∃ target, x = .link target

/-- The key files of those owners that have none. -/
def Missing (f : Data) (owners : List Owner) (l : Path) : Prop :=
  ∃ o ∈ owners, Gone f o ∧ Of o o.keyFiles l

/-- What is written for the missing keys does not make an owner one that had none. -/
theorem Gone.of_changes {f f' : Data} {owners : List Owner} {o : Owner}
    (h : Changes (Missing f owners) f f') (hgone : Gone f' o) : Gone f o := by
  intro n hn x hx
  by_cases hmissing : Missing f owners (n :: o.dir)
  · obtain ⟨o', -, hgone', hof⟩ := hmissing
    obtain ⟨rfl, -⟩ := of_file.mp hof
    exact hgone' n hn x hx
  · exact hgone n hn x ((h.file hmissing).trans hx)

section
variable {D : Path} {t : Tree} {d : Path}

theorem link_of_follow (h : follow t p = none) : ∀ x, t.get p = some x → ∃ target, x = .link target := by
  intro x hx
  cases x with
  | link target => exact ⟨target, rfl⟩
  | _ =>
    rw [follow, hx] at h
    cases h

theorem presence_yields (d : Path) (names : List String) (t : Tree) :
    (presence d names).Yields machine
      (fun there u => u = t ∧ there = names.map fun n => (follow t (n :: d)).isSome) t := by
  induction names with
  | nil => exact Prog.yields_ret ⟨rfl, rfl⟩
  | cons n names ih =>
    refine Prog.yields_bind (Prog.yields_perform fun b u h => ?_)
    obtain ⟨rfl, hb⟩ := Step.ok h
    refine Prog.yields_bind (ih.mono fun there v ⟨hv, hthere⟩ => Prog.yields_ret ⟨hv, ?_⟩)
    rw [hthere, Except.ok.inj hb]
    rfl

theorem statusOf_missing {present : List Bool} (h : statusOf present = .missing) :
    ∀ b ∈ present, b = false := by
  unfold statusOf at h
  split at h
  · cases h
  · split at h
    · cases h
    · rename_i hany
      intro b hb
      by_contra hne
      exact hany (List.any_eq_true.mpr ⟨b, hb, by simpa using hne⟩)

/-- An owner without keys is one of whose key files there is none. -/
theorem keyStatus_yields (o : Owner) (D : Path) (t : Tree) :
    (keyStatus (o.dir ++ D) o.keyFiles).Yields machine
      (fun status u => u = t ∧ (status = .missing → Gone (dataAt t D) o)) t := by
  refine Prog.yields_bind ((presence_yields _ _ t).mono fun there u ⟨hu, hthere⟩ =>
    Prog.yields_ret ⟨hu, fun hmissing n hn => ?_⟩)
  have hnone := statusOf_missing hmissing (follow t (n :: (o.dir ++ D))).isSome (by
    rw [hthere]
    exact List.mem_map_of_mem hn)
  exact link_of_follow (Option.isSome_eq_false_iff.mp hnone |> Option.isNone_iff_eq_none.mp)

/-- What has been made of the missing keys of some owners. -/
structure Provided (runner : Runner) (owners : List Owner) (f f' : Data) : Prop where
  changes : Changes (Missing f owners) f f'
  renews : Renews runner f f'

theorem Provided.refl {runner : Runner} {owners : List Owner} {f : Data} :
    Provided runner owners f f := ⟨.refl, .refl⟩

/-- An owner that had no keys gets new ones. -/
theorem Provided.next {runner : Runner} {owners : List Owner} {o : Owner} {f f' f'' : Data}
    (h : Provided runner owners f f') (ho : o ∈ owners) (hgone : Gone f' o)
    (hchanges : Changes (Of o o.keyFiles) f' f'') (hpair : Generated runner pair)
    (hnew : NewPair f'' o pair) : Provided runner owners f f'' := by
  refine ⟨h.changes.trans (hchanges.mono fun l hl => ⟨o, ho, hgone.of_changes h.changes, hl⟩),
    h.renews.trans fun o' => ?_⟩
  by_cases heq : o' = o
  · subst heq
    exact .inr (.inl ⟨runner, rfl, pair, hpair, hnew⟩)
  · exact .inl fun n _ => hchanges.file fun hl => heq (of_file.mp hl).1

theorem generateServerKeys_yields (paths : InstancePaths) (runner : Runner) {owners : List Owner}
    {f : Data} (ho : Owner.server ∈ owners) (hD : t.get D ≠ none)
    (h : Provided runner owners f (dataAt t D)) :
    (generateServerKeys (paths.withData D) runner).Yields machine
      (fun _ u => u.get D ≠ none ∧ Provided runner owners f (dataAt u D)) t := by
  refine Prog.yields_bind ((keyStatus_yields .server D t).mono fun status u ⟨hu, hgone⟩ => ?_)
  subst hu
  cases status with
  | incomplete => exact Prog.yields_raise
  | complete => exact Prog.yields_ret ⟨hD, h⟩
  | missing =>
    refine Prog.yields_bind ((generateKeyPair_yields runner u).mono fun pair v ⟨hv, hpair⟩ => ?_)
    subst hv
    refine Prog.yields_bind ((writeKey_next .server
      (by simp [Owner.keyFiles] : privateKey ∈ Owner.server.keyFiles) pair.priv 0o600 hD .refl).mono fun _ t₁ ⟨hD₁, hpriv₁, _, h₁⟩ => ?_)
    refine Prog.yields_bind ((writeKey_next .server (n := publicKey) (by simp [Owner.keyFiles])
      pair.pub 0o644 hD₁ h₁).mono fun _ t₂ ⟨hD₂, hpub₂, hsame₂, h₂⟩ => Prog.yields_ret ⟨hD₂, ?_⟩)
    exact h.next ho (hgone rfl) h₂ hpair ⟨(hsame₂ _ (by decide)).trans hpriv₁, hpub₂⟩

theorem generatePeerKeys_yields (paths : InstancePaths) (runner : Runner) (peer : PeerConfig)
    {owners : List Owner} {f : Data} (ho : Owner.peer peer.name ∈ owners) (hD : t.get D ≠ none)
    (h : Provided runner owners f (dataAt t D)) :
    (generatePeerKeys (paths.withData D) runner peer).Yields machine
      (fun _ u => u.get D ≠ none ∧ Provided runner owners f (dataAt u D)) t := by
  refine Prog.yields_bind ((keyStatus_yields (.peer peer.name) D t).mono fun status u ⟨hu, hgone⟩ => ?_)
  subst hu
  cases status with
  | incomplete => exact Prog.yields_raise
  | complete => exact Prog.yields_ret ⟨hD, h⟩
  | missing =>
    refine Prog.yields_bind ((generateKeyPair_yields runner u).mono fun pair v ⟨hv, hpair⟩ => ?_)
    subst hv
    refine Prog.yields_bind ((generatePresharedKey_yields runner v).mono fun preshared w ⟨hw, _⟩ => ?_)
    subst hw
    refine Prog.yields_bind ((writeKey_next (.peer peer.name)
      (by simp [Owner.keyFiles] : privateKey ∈ (Owner.peer peer.name).keyFiles)
      pair.priv 0o600 hD .refl).mono fun _ t₁ ⟨hD₁, hpriv₁, _, h₁⟩ => ?_)
    refine Prog.yields_bind ((writeKey_next (.peer peer.name) (n := publicKey)
      (by simp [Owner.keyFiles]) pair.pub 0o644 hD₁ h₁).mono fun _ t₂ ⟨hD₂, hpub₂, hsame₂, h₂⟩ => ?_)
    refine Prog.yields_bind ((writeKey_next (.peer peer.name) (n := presharedKey)
      (by simp [Owner.keyFiles]) preshared 0o600 hD₂ h₂).mono
      fun _ t₃ ⟨hD₃, _, hsame₃, h₃⟩ => Prog.yields_ret ⟨hD₃, ?_⟩)
    refine h.next ho (hgone rfl) h₃ hpair ⟨?_, (hsame₃ _ (by decide)).trans hpub₂⟩
    exact ((hsame₃ _ (by decide)).trans (hsame₂ _ (by decide))).trans hpriv₁

theorem generateAll_yields (paths : InstancePaths) (runner : Runner) {owners : List Owner} {f : Data}
    (peers : List PeerConfig) (ho : ∀ peer ∈ peers, Owner.peer peer.name ∈ owners)
    (hD : t.get D ≠ none) (h : Provided runner owners f (dataAt t D)) :
    (generateAll (generatePeerKeys (paths.withData D) runner) peers).Yields machine
      (fun _ u => u.get D ≠ none ∧ Provided runner owners f (dataAt u D)) t := by
  induction peers generalizing t with
  | nil => exact Prog.yields_ret ⟨hD, h⟩
  | cons peer peers ih =>
    obtain ⟨hpeer, hpeers⟩ := List.forall_mem_cons.mp ho
    refine Prog.yields_bind ((generatePeerKeys_yields paths runner peer hpeer hD h).mono
      fun created u ⟨hu, hprovided⟩ => ?_)
    exact Prog.yields_bind ((ih hpeers hu hprovided).mono fun _ v hv => Prog.yields_ret hv)

/-- The owners a selection is about. -/
def ownersOf (selected : List PeerConfig) : List Owner :=
  .server :: selected.map fun peer => .peer peer.name

/-- Missing keys are made, existing ones stay, and what is derived for the selected peers is
written. -/
theorem generateFrom_yields (config : ProjectConfig) (runner : Runner) (selected : List PeerConfig)
    (paths : InstancePaths) (hD : t.get D ≠ none) :
    (generateFrom config runner selected (paths.withData D)).Yields machine (fun _ u =>
      Changes (fun l => Missing (dataAt t D) (ownersOf selected) l ∨ PhoneOf selected l)
        (dataAt t D) (dataAt u D) ∧ Renews runner (dataAt t D) (dataAt u D)) t := by
  refine Prog.yields_bind ((generateServerKeys_yields paths runner
    (List.mem_cons_self : _ ∈ ownersOf selected) hD .refl).mono fun server t₁ ⟨hD₁, h₁⟩ => ?_)
  have hpeers : ∀ peer ∈ selected, Owner.peer peer.name ∈ ownersOf selected := fun peer hpeer =>
    List.mem_cons_of_mem _ (List.mem_map.mpr ⟨peer, hpeer, rfl⟩)
  refine Prog.yields_bind ((generateAll_yields paths runner selected hpeers hD₁ h₁).mono
    fun peers t₂ ⟨hD₂, h₂⟩ => ?_)
  refine Prog.yields_bind ((yields_of_reads (looks_reads (validateSelectedKeys_looks _ selected))
    (Prog.yields_trivial _ t₂)).mono fun _ t₃ ⟨h₃, _⟩ => ?_)
  subst h₃
  refine Prog.yields_bind ((renderPhoneConfigs_yields config paths selected hD₂).mono
    fun _ t₄ ⟨_, h₄⟩ => Prog.yields_ret ⟨?_, ?_⟩)
  · exact (h₂.changes.mono fun l hl => .inl hl).trans (h₄.mono fun l hl => .inr hl)
  · exact h₂.renews.trans (h₄.renews fun o n hn => not_phoneOf_key hn)

end

/-! ## Pruning -/

/-- At or below the directory of a peer that is not declared. -/
def Orphaned (config : ProjectConfig) (l : Path) : Prop :=
  ∃ name, name ∉ config.wireguard.peers.map (·.name) ∧ peerAt name <:+ l

/-- The files that a prune takes away are those of undeclared peers. -/
theorem orphaned_file {config : ProjectConfig} {o : Owner} {n : String} :
    Orphaned config (n :: o.dir) ↔
      ∃ name, o = .peer name ∧ name ∉ config.wireguard.peers.map (·.name) := by
  constructor
  · rintro ⟨name, hname, hs⟩
    cases o with
    | server =>
      have := hs.eq_of_length (by simp [Owner.dir, serverAt, peerAt])
      simp [peerAt, Owner.dir, serverAt] at this
    | peer name' =>
      rcases List.suffix_cons_iff.mp hs with heq | hs
      · simp [peerAt, Owner.dir] at heq
      · have := hs.eq_of_length (by simp [Owner.dir, peerAt])
        simp only [peerAt, Owner.dir, List.cons.injEq, and_true] at this
        exact ⟨name', rfl, this ▸ hname⟩
  · rintro ⟨name, rfl, hname⟩
    exact ⟨name, hname, List.suffix_cons _ _⟩

/-- The undeclared peers of a generation. -/
structure Orphans (config : ProjectConfig) (f : Data) (names : List String) : Prop where
  mem : ∀ n, n ∈ names ↔ n ∉ config.wireguard.peers.map (·.name) ∧ f (peerAt n) ≠ none
  sorted : names.Pairwise (· ≤ ·)
  nodup : names.Nodup

section
variable {D : Path} {t : Tree}

/-- The children that are not declared are gone, and nothing else is. -/
theorem pruneEach_yields (declared : List String) (root : Path) (names : List String) (t : Tree) :
    (pruneEach declared root names).Yields machine (fun removed u =>
      removed = names.filter (fun n => decide (n ∉ declared)) ∧
      (∀ n ∈ removed, ∀ l, u.get (l ++ n :: root) = none) ∧
      ∀ q, (∀ n ∈ removed, ¬ (n :: root) <:+ q) → u.get q = t.get q) t := by
  induction names generalizing t with
  | nil => exact Prog.yields_ret ⟨rfl, fun _ hn => absurd hn List.not_mem_nil, fun _ _ => rfl⟩
  | cons n names ih =>
    refine Prog.yields_ite (fun hn => (ih t).mono fun removed u ⟨hremoved, hrest⟩ => ?_) fun hn => ?_
    · exact ⟨by rw [hremoved, List.filter_cons_of_neg (by simpa using hn)], hrest⟩
    have hlooks : (isUnexpected (root / n)).Only OsOp.Reads := (isSymlink_reads _).bind fun _ =>
      Prog.only_ret.ite ((Prog.only_perform.mpr fun _ => id).bind fun _ => Prog.only_ret)
    refine Prog.yields_bind ((yields_of_reads hlooks (Prog.yields_trivial _ t)).mono
      fun unexpected t₂ ⟨h₂, _⟩ => ?_)
    subst h₂
    refine Prog.yields_ite (fun _ => Prog.yields_bind Prog.yields_raise) fun _ => ?_
    refine Prog.yields_bind (((rmtree_yields (root / n) t₂).and_keeps
      (keeps_of_below (rmtree_below _) t₂) fun _ _ => rfl).mono fun _ t₃ ⟨hgone, hother⟩ => ?_)
    refine Prog.yields_bind ((ih t₃).mono fun removed u ⟨hremoved, hnone, hsame⟩ =>
      Prog.yields_ret ⟨?_, ?_, fun q hq => ?_⟩)
    · rw [hremoved, List.filter_cons_of_pos (by simpa using hn)]
    · intro m hm l
      by_cases hlater : m ∈ removed
      · exact hnone m hlater l
      obtain rfl := (List.mem_cons.mp hm).resolve_right hlater
      rw [hsame _ fun k hk hs => ?_]
      · exact hgone l
      · by_cases hkm : k = m
        · exact hlater (hkm ▸ hk)
        · exact Path.not_below_sibling hkm l root hs
    · rw [hsame q fun k hk => hq k (List.mem_cons_of_mem n hk)]
      exact hother q (hq n List.mem_cons_self)

theorem peerAt_append (name : String) (D : Path) : peerAt name ++ D = name :: (D / "peers") := rfl

/-- The directories of the undeclared peers are gone, and nothing else is. -/
theorem pruneIn_yields (config : ProjectConfig) (paths : InstancePaths) (hD : t.get D ≠ none) :
    (pruneIn config (paths.withData D)).Yields machine (fun removed u =>
      (∀ l, Orphaned config l → dataAt u D l = none) ∧
      (∀ l, ¬ Orphaned config l → dataAt u D l = dataAt t D l) ∧
      Orphans config (dataAt t D) removed) t := by
  refine Prog.yields_bind (Prog.yields_perform fun there t₁ h₁ => ?_)
  obtain ⟨rfl, hthere⟩ := Step.ok h₁
  refine Prog.yields_ite (fun hnot => ?_) fun _ => ?_
  · -- there is no peer at all
    have hnone (name : String) (l : Path) : dataAt t₁ D (l ++ peerAt name) = none := by
      have hfollow : follow t₁ (D / "peers") = none := by
        have hfalse : there = false := by simpa using hnot
        exact Option.isNone_iff_eq_none.mp (Option.isSome_eq_false_iff.mp
          ((Except.ok.inj hthere).symm.trans hfalse))
      by_contra hne
      obtain ⟨m, hm⟩ := Tree.dir_of_below (l := l ++ [name]) (p := D / "peers")
        (by simpa [dataAt, peerAt, Path.div_def] using hne) (by simp)
      obtain ⟨target, htarget⟩ := link_of_follow hfollow _ hm
      cases htarget
    refine Prog.yields_bind (Prog.yields_ret (Prog.yields_ret ⟨?_, fun _ _ => rfl, ?_, ?_, ?_⟩))
    · rintro l ⟨name, -, k, rfl⟩
      exact hnone name k
    · exact fun n => ⟨fun hn => absurd hn List.not_mem_nil, fun hn => absurd (hnone n []) hn.2⟩
    · exact .nil
    · exact .nil
  refine Prog.yields_bind (Prog.yields_perform fun names t₂ h₂ => ?_)
  obtain ⟨rfl, -, hnames⟩ := (Step.ok h₂).listdir
  refine Prog.yields_bind ((pruneEach_yields _ _ names t₂).mono fun removed u hpruned =>
    Prog.yields_ret ?_)
  obtain ⟨hremoved, hnone, hsame⟩ := hpruned
  have hmem (n : String) : n ∈ removed ↔ n ∉ config.wireguard.peers.map (·.name) ∧
      dataAt t₂ D (peerAt n) ≠ none := by
    rw [hremoved, List.mem_filter, hnames.mem_iff, Tree.mem_names, decide_eq_true_iff, and_comm]
    rfl
  have hbelow (n : String) (l : Path) : n :: (D / "peers") <:+ l ++ D ↔ peerAt n <:+ l := by
    rw [← peerAt_append, append_suffix_iff]
  refine ⟨?_, fun l hl => hsame _ fun n hn hs => ?_, fun n => ?_, ?_, ?_⟩
  · rintro l ⟨name, hname, k, rfl⟩
    by_cases hin : name ∈ removed
    · rw [dataAt, List.append_assoc]
      exact hnone name hin k
    · -- a peer that is not there
      have hempty : t₂.get (name :: (D / "peers")) = none := by
        by_contra hne
        exact hin ((hmem name).mpr ⟨hname, hne⟩)
      rw [dataAt, List.append_assoc, hsame _ fun n hn hs => ?_]
      · exact Tree.get_below_eq_none hempty k
      · by_cases hnn : n = name
        · exact hin (hnn ▸ hn)
        · exact Path.not_below_sibling hnn k _ hs
  · exact hl ⟨n, ((hmem n).mp hn).1, (hbelow n l).mp hs⟩
  · rw [List.mem_insertionSort]
    exact hmem n
  · exact List.pairwise_insertionSort _ _
  · refine (List.perm_insertionSort _ _).nodup_iff.mpr ?_
    rw [hremoved]
    exact (hnames.nodup_iff.mpr (Tree.nodup_names t₂ _)).filter _

/-- No pair is made by pruning. -/
theorem renews_of_pruned {config : ProjectConfig} {runner : Option Runner} {f f' : Data}
    (hgone : ∀ l, Orphaned config l → f' l = none) (hsame : ∀ l, ¬ Orphaned config l → f' l = f l) :
    Renews runner f f' := by
  intro o
  by_cases ho : Orphaned config (privateKey :: o.dir)
  · exact .inr (.inr (hgone _ ho))
  · exact .inl fun n _ => hsame _ fun hn => ho (orphaned_file.mpr (orphaned_file.mp hn))

end

end Keys
end ShuttleGate
