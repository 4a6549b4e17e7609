import ShuttleGate.Keys.History
import ShuttleGate.Render.Cryptokey

/-! # The two ends of a tunnel

A public key is never compared with its private key. That they belong together is kept by every
command, and a phone configuration that is found current agrees with the configuration the gateway
renders from the same generation. -/

namespace ShuttleGate

open Fs Effect Os Files State

namespace Keys

/-! ## Keys that belong together -/

/-- `wg pubkey` computes a function. -/
def Runner.Computes (runner : Runner) (pubkey : String → String) : Prop :=
  ∀ priv pub, runner.Prints priv pub → pub = pubkey priv

/-- The public key of every owner is the one of its private key. -/
def KeysAgree (pubkey : String → String) (f : Data) : Prop :=
  ∀ (o : Owner) priv pub, Line (f (privateKey :: o.dir)) priv → Line (f (publicKey :: o.dir)) pub →
    pub = pubkey priv

/-- New pairs agree, and the others have not changed. -/
theorem KeysAgree.renews {pubkey : String → String} {runner : Option Runner} {f f' : Data}
    (h : KeysAgree pubkey f) (hrunner : ∀ r ∈ runner, r.Computes pubkey) (hrenews : Renews runner f f') :
    KeysAgree pubkey f' := by
  intro o priv pub hpriv hpub
  rcases hrenews o with hsame | ⟨r, hr, pair, hpair, hnew⟩ | hnone
  · rw [hsame _ (by simp)] at hpriv hpub
    exact h o priv pub hpriv hpub
  · rw [hnew.priv] at hpriv
    rw [hnew.pub] at hpub
    rw [hpriv.unique (line_key hpair.validPriv _), hpub.unique (line_key hpair.validPub _)]
    exact hrunner r hr _ _ hpair.prints
  · obtain ⟨_, _, hfile, -⟩ := hpriv
    cases hnone.symm.trans hfile

/-- In a history in which every runner computes the same public keys they always agree. -/
theorem History.keysAgree {pubkey : String → String} {paths : InstancePaths}
    (hstart : KeysAgree pubkey (content paths t₀))
    (h : History paths (fun cmd => ∀ r ∈ cmd.runner, r.Computes pubkey) t₀ t) :
    KeysAgree pubkey (content paths t) :=
  h.invariant hstart fun _ _ _ hc hf _ hrenews => hf.renews hc hrenews

/-! ## The gateway's side -/

/-- The keys `_setup_wireguard` collects; a later peer of a name takes the place of an earlier one. -/
def loadMaterials (paths : InstancePaths) :
    List PeerConfig → List (String × String × String) → OsM (List (String × String × String))
  | [], keys => pure keys
  | peer :: peers, keys => do
    let (pair, preshared) ← loadPeerKeys paths peer.name
    loadMaterials paths peers ((peer.name, pair.pub, preshared) :: keys)

/-- The configuration `_setup_wireguard` gives `wg setconf`. -/
def wireguardConfig (config : ProjectConfig) (paths : InstancePaths) : OsM String := do
  let server ← loadServerKeys paths
  let keys ← loadMaterials paths config.wireguard.peers []
  Prog.ofExcept (renderServerConfig config server.priv keys)

/-- The collected keys are those of the peers. -/
def Collected (f : Data) (keys : List (String × String × String)) : Prop :=
  ∀ name pub preshared, keys.lookup name = some (pub, preshared) →
    ∃ pair, Provisioned f (peerAt name) pair preshared ∧ pair.pub = pub

theorem loadMaterials_yields (paths : InstancePaths) (D : Path) (peers : List PeerConfig)
    (keys : List (String × String × String)) (t : Tree) (h : Collected (dataAt t D) keys) :
    (loadMaterials (paths.withData D) peers keys).Yields machine
      (fun keys' u => u = t ∧ Collected (dataAt t D) keys') t := by
  induction peers generalizing keys with
  | nil => exact Prog.yields_ret ⟨rfl, h⟩
  | cons peer peers ih =>
    refine Prog.yields_bind ((loadPeer_yields (paths.withData D) peer.name t).mono
      fun loaded u ⟨hu, hloaded⟩ => ?_)
    subst hu
    refine ih _ fun name pub preshared hlookup => ?_
    rw [List.lookup_cons] at hlookup
    split at hlookup
    · rename_i heq
      obtain rfl : name = peer.name := by simpa using heq
      cases hlookup
      refine ⟨loaded.1, ⟨⟨?_, ?_, ?_, ?_⟩, ?_, ?_⟩, rfl⟩
      · exact hloaded.pair.priv
      · exact hloaded.pair.pub
      · exact hloaded.pair.validPriv
      · exact hloaded.pair.validPub
      · exact hloaded.line
      · exact hloaded.valid
    · exact h name pub preshared hlookup

theorem Provisioned.unique {f : Data} {d : Path} {pair pair' : KeyPair} {preshared preshared' : String}
    (h : Provisioned f d pair preshared) (h' : Provisioned f d pair' preshared') :
    pair = pair' ∧ preshared = preshared' :=
  ⟨h.pair.unique h'.pair, h.line.unique h'.line⟩

/-- The lines of a server configuration before those of the peers. -/
def serverLines (config : ProjectConfig) (priv : String) : List String :=
  ["[Interface]", "PrivateKey = " ++ priv, "ListenPort = " ++ toString config.wireguard.listenPort]

theorem wireguardConfig_yields (config : ProjectConfig) (paths : InstancePaths) (D : Path) (t : Tree) :
    (wireguardConfig config (paths.withData D)).Yields machine (fun text u => u = t ∧
      ∃ server, Paired (dataAt t D) serverAt server ∧ ∃ keys : PeerConfig → String × String,
        (∀ peer ∈ config.wireguard.peers, ∃ pair, pair.pub = (keys peer).1 ∧
          Provisioned (dataAt t D) (peerAt peer.name) pair (keys peer).2) ∧
        text = "\n".intercalate (serverLines config server.priv ++ config.wireguard.peers.flatMap
          fun peer => serverPeerLines peer (keys peer).1 (keys peer).2) ++ "\n") t := by
  refine Prog.yields_bind ((loadServer_yields (paths.withData D) t).mono fun server u ⟨hu, hserver⟩ => ?_)
  subst hu
  refine Prog.yields_bind ((loadMaterials_yields paths D _ [] u nofun).mono fun keys v ⟨hv, hkeys⟩ => ?_)
  subst hv
  cases hrender : renderServerConfig config server.priv keys with
  | error e => exact Prog.yields_raise
  | ok text =>
    obtain ⟨found, hlookup, htext⟩ := renderServerConfig_ok hrender
    refine Prog.yields_ret ⟨rfl, server, ⟨hserver.priv, hserver.pub, hserver.validPriv, hserver.validPub⟩,
      found, fun peer hpeer => ?_, htext⟩
    obtain ⟨pair, hpair, hpub⟩ := hkeys peer.name _ _ (hlookup peer hpeer)
    exact ⟨pair, hpub, hpair⟩

/-! ## Both sides -/

/-- The two configurations of a peer's tunnel: the phone's has the public key of the gateway's
private key, the gateway's has the public key of the phone's, and both have the same preshared key;
the addresses and the port are those of one configuration. -/
def Tunnel (pubkey : String → String) (config : ProjectConfig) (f : Data) (text : String)
    (peer : PeerConfig) : Prop :=
  ∃ serverPriv peerPriv preshared before after,
    text = "\n".intercalate (serverLines config serverPriv ++
      (before ++ (serverPeerLines peer (pubkey peerPriv) preshared ++ after))) ++ "\n" ∧
    Text (f (phoneConfig :: peerAt peer.name))
      (renderPhoneConfig config peer (pubkey serverPriv) peerPriv preshared)

/-- The key pair of the example: `wg pubkey` prints the second for the first. -/
def examplePair : KeyPair :=
  ⟨"AAIDBAUGBwgJCgsMDQ4PEBESExQVFhcYGRobHB0eH2A=", "B6N8vBQgk8i3VdwbEOhstCY3StFqqFPtC9/AsrhtHHw="⟩

/-- A runner that knows one pair. -/
def exampleRunner : Runner where
  run arguments input := Prog.ret ⟨0, if arguments = ["wg", "pubkey"] then
      (if input = some (examplePair.priv ++ "\n") then examplePair.pub ++ "\n" else "")
    else examplePair.priv ++ "\n", ""⟩
  reads _ _ := Prog.only_ret

def examplePubkey (priv : String) : String :=
  if priv = examplePair.priv then examplePair.pub else ""

theorem exampleRunner_computes : exampleRunner.Computes examplePubkey := by
  intro priv pub ⟨t, r, u, hrun, hpub⟩
  have hresult : (exampleRunner.run ["wg", "pubkey"] (some (priv ++ "\n"))).Yields machine
      (fun r _ => r.stdout = if priv = examplePair.priv then examplePair.pub ++ "\n" else "") t := by
    refine Prog.yields_ret ?_
    simp only [if_true, Option.some.injEq, String.append_left_inj]
  have hstdout := hresult.returns hrun
  rw [← hpub, hstdout, examplePubkey]
  split
  · decide +kernel
  · decide

/-- An instance without a state. -/
def freshTree : Tree := .ofEntries [([], .dir 0o755)] (by decide)

theorem content_fresh {l : Path} (hl : l ≠ []) : content examplePaths freshTree l = none := by
  obtain ⟨k, n, rfl⟩ := (List.eq_nil_or_concat l).resolve_left hl
  rw [List.concat_eq_append]
  have hnone : designated examplePaths freshTree = none := rfl
  rw [content, hnone]
  simp only [base, migrated, filled_concat]
  split
  · have hstate : freshTree.get examplePaths.state = none := rfl
    have := Tree.get_below_eq_none hstate (k ++ [n])
    rwa [List.append_assoc] at this
  · rfl

end Keys
end ShuttleGate
