import ShuttleGate.Keys.Lifecycle

/-! # What the loaders have found

A key set or a phone configuration that is loaded is there: the keys are the lines of their files,
and a configuration that is current is the one rendered from them. -/

namespace ShuttleGate

open Fs Effect Os Files State Crypto

namespace Keys

/-! ## The line of a key file -/

section
variable {key value label : String}

/-- What is accepted is the text itself, whatever it is called. -/
theorem valid_of_accepted (h : validateWireguardKey value label = .ok key) :
    key = value ∧ Valid value := by
  have hsame : key = value := by
    rw [validateWireguardKey, raiseIf_bind_eq_ok] at h
    obtain ⟨-, h⟩ := h
    split at h
    · cases h
    · exact (Except.ok.inj (raiseIf_bind_eq_ok.mp h).2).symm
  subst hsame
  exact ⟨rfl, validateWireguardKey_isOk.mpr (validateWireguardKey_isOk.mp h)⟩

theorem Valid.accepted (h : Valid value) (label : String) :
    validateWireguardKey value label = .ok value :=
  validateWireguardKey_isOk.mpr (validateWireguardKey_isOk.mp h)

theorem isSpace_digit (h : n < 64) : isSpace (Base64.digit n) = false := by
  have : ∀ n < 64, isSpace (Base64.digit n) = false := by
    simp only [Base64.digit, Base64.alphabet_eq]
    decide +kernel
  exact this n h

/-- A key has no white space. -/
theorem Valid.isSpace (h : Valid key) : ∀ c ∈ key.toList, isSpace c = false := by
  obtain ⟨ds, v, hshape⟩ := validateWireguardKey_isOk.mp h
  intro c hc
  rw [hshape.split] at hc
  rcases List.mem_append.mp hc with hc | hc
  · obtain ⟨n, hn⟩ := hshape.digits c hc
    obtain ⟨hlt, rfl⟩ := Base64.eq_digit hn
    exact isSpace_digit hlt
  · rcases List.mem_cons.mp hc with rfl | hc
    · exact isSpace_digit hshape.last
    · obtain rfl := List.mem_singleton.mp hc
      decide

theorem Valid.length (h : Valid key) : key.length = 44 := by
  obtain ⟨ds, v, hshape⟩ := validateWireguardKey_isOk.mp h
  exact KeyShape.length hshape

theorem utf8EncodeChar_of_lt {c : Char} (h : c.toNat < 128) :
    String.utf8EncodeChar c = [UInt8.ofNat c.toNat] := by
  have hbyte : (UInt8.ofNat c.toNat).toNat = c.toNat := UInt8.toNat_ofNat_of_lt' (by
    rw [UInt8.size]
    omega)
  have := utf8EncodeChar_ascii (b := UInt8.ofNat c.toNat) (by rw [hbyte]; exact h)
  rwa [hbyte, Char.ofNat_toNat] at this

/-- The bytes of an ASCII text. -/
theorem ascii_encodeUtf8 {s : String} (h : ∀ c ∈ s.toList, c.toNat < 128) :
    ∀ b ∈ encodeUtf8 s, b.toNat < 128 := by
  intro b hb
  rw [← String.ofList_toList (s := s), encodeUtf8_ofList] at hb
  obtain ⟨c, hc, hb⟩ := List.mem_flatMap.mp hb
  rw [utf8EncodeChar_of_lt (h c hc)] at hb
  obtain rfl := List.mem_singleton.mp hb
  have hlt := h c hc
  rw [UInt8.toNat_ofNat_of_lt' (by rw [UInt8.size]; omega)]
  exact hlt

theorem asciiChars_encodeUtf8 {s : String} (h : ∀ c ∈ s.toList, c.toNat < 128) :
    asciiChars (encodeUtf8 s) = s.toList := by
  have hdecode := decodeUtf8_ascii (ascii_encodeUtf8 h)
  rw [decodeUtf8_encodeUtf8] at hdecode
  have := congrArg String.toList (Option.some.inj hdecode)
  rwa [String.toList_ofList, eq_comm] at this

theorem dropWhile_isSpace {s : List Char} (h : ∀ c ∈ s, ShuttleGate.isSpace c = false) :
    s.dropWhile ShuttleGate.isSpace = s := by
  cases s with
  | nil => rfl
  | cons c cs => rw [List.dropWhile_cons, h c List.mem_cons_self]; rfl

/-- The line break after a text without white space is stripped. -/
theorem strip_newline {s : List Char} (h : ∀ c ∈ s, ShuttleGate.isSpace c = false) :
    strip (.ofList (s ++ ['\n'])) = .ofList s := by
  have hreverse : ∀ c ∈ s.reverse, ShuttleGate.isSpace c = false :=
    fun c hc => h c (List.mem_reverse.mp hc)
  have hbreak : ShuttleGate.isSpace '\n' = true := by decide
  rw [strip, String.toList_ofList]
  cases s with
  | nil => rfl
  | cons c cs =>
    have hfront : ((c :: cs) ++ ['\n']).dropWhile ShuttleGate.isSpace = (c :: cs) ++ ['\n'] := by
      rw [List.cons_append, List.dropWhile_cons, h c List.mem_cons_self]
      rfl
    rw [hfront, List.reverse_append, List.reverse_singleton, List.singleton_append,
      List.dropWhile_cons, hbreak, if_pos rfl, dropWhile_isSpace hreverse, List.reverse_reverse]

/-- A key that is written is the line of its file. -/
theorem line_key (h : Valid key) (mode : Nat) :
    Line (some (.file mode (encodeUtf8 (key ++ "\n")))) key := by
  have hascii : ∀ c ∈ (key ++ "\n").toList, c.toNat < 128 := by
    rw [String.toList_append]
    exact List.forall_mem_append.mpr ⟨h.ascii, by decide⟩
  have hreturn : '\r' ∉ (key ++ "\n").toList := by
    rw [String.toList_append]
    refine List.mem_append.not.mpr (not_or.mpr ⟨fun hc => ?_, by decide⟩)
    have := h.isSpace _ hc
    revert this
    decide
  refine ⟨mode, _, rfl, ?_, ascii_encodeUtf8 hascii, ?_⟩
  · rw [length_encodeUtf8 fun c hc => Nat.le_of_lt_succ (hascii c hc), String.length_append, h.length]
    decide
  · rw [lineOf, asciiChars_encodeUtf8 hascii, universalNewlines_eq hreturn, String.toList_append]
    exact (strip_newline h.isSpace).trans String.ofList_toList

end

/-! ## Key sets -/

/-- The objects of a generation by their paths in it. -/
abbrev Data := Path → Option Obj

/-- The directory of the server's keys in a generation. -/
def serverAt : Path := ["server"]

/-- The directory of a peer. -/
def peerAt (name : String) : Path := [name, "peers"]

/-- A directory holds a key pair. -/
structure Paired (f : Data) (d : Path) (pair : KeyPair) : Prop where
  priv : Line (f (privateKey :: d)) pair.priv
  pub : Line (f (publicKey :: d)) pair.pub
  validPriv : Valid pair.priv
  validPub : Valid pair.pub

theorem Paired.unique {f : Data} (h : Paired f d pair) (h' : Paired f d pair') : pair = pair' := by
  cases pair
  cases pair'
  exact KeyPair.mk.injEq .. ▸ ⟨h.priv.unique h'.priv, h.pub.unique h'.pub⟩

/-- A directory holds the keys of a peer. -/
structure Provisioned (f : Data) (d : Path) (pair : KeyPair) (preshared : String) : Prop where
  pair : Paired f d pair
  line : Line (f (presharedKey :: d)) preshared
  valid : Valid preshared

/-- A regular file of one's own with a text. -/
def Text (o : Option Obj) (text : String) : Prop :=
  ∃ mode content s, o = some (.file mode content) ∧ decodeUtf8 content = some s ∧
    text = .ofList (universalNewlines s.toList)

/-- The phone configuration of a peer is the one rendered from its keys and the server's. -/
def PhoneCurrent (config : ProjectConfig) (f : Data) (server : KeyPair) (peer : PeerConfig) : Prop :=
  ∃ pair preshared, Provisioned f (peerAt peer.name) pair preshared ∧
    Text (f (phoneConfig :: peerAt peer.name))
      (renderPhoneConfig config peer server.pub pair.priv preshared)

/-! ## The loaders -/

section
variable {t : Tree} {d : Path} {owner name label : String}

theorem presence_looks (d : Path) : ∀ names, (presence d names).Only OsOp.Looks
  | [] => Prog.only_ret
  | _ :: names => (pathExists_looks _).bind fun _ => (presence_looks d names).bind fun _ =>
    Prog.only_ret

theorem keyStatus_looks (d : Path) (names : List String) : (keyStatus d names).Only OsOp.Looks :=
  (presence_looks d names).bind fun _ => Prog.only_ret

theorem readPublicKey_looks (p : Path) (label : String) : (readPublicKey p label).Only OsOp.Looks :=
  (requireRegularFile_looks p label).bind fun _ => (readLine_looks p label).bind fun _ =>
    Prog.only_ofExcept _

theorem loadPair_looks (d : Path) (owner : String) : (loadPair d owner).Only OsOp.Looks :=
  (readTextSecret_looks _ _).bind fun _ => (Prog.only_ofExcept _).bind fun _ =>
    (readPublicKey_looks _ _).bind fun _ => Prog.only_ret

theorem loadServer_looks (paths : InstancePaths) : (loadServer paths).Only OsOp.Looks :=
  (keyStatus_looks _ _).bind fun _ => Prog.only_raise.ite (loadPair_looks _ _)

theorem loadPeer_looks (paths : InstancePaths) (name : String) :
    (loadPeer paths name).Only OsOp.Looks := by
  refine (keyStatus_looks _ _).bind fun _ => Prog.only_raise.ite ?_
  exact (loadPair_looks _ _).bind fun _ => (readTextSecret_looks _ _).bind fun _ =>
    (Prog.only_ofExcept _).bind fun _ => Prog.only_ret

theorem phoneArtifacts_looks (config : ProjectConfig) (paths : InstancePaths) (peer : PeerConfig)
    (server : KeyPair) : (phoneArtifacts config paths peer server).Only OsOp.Looks :=
  (loadPeer_looks paths peer.name).bind fun _ => (Prog.only_ofExcept _).bind fun _ => Prog.only_ret

theorem readText_looks (p : Path) : (readText p).Only OsOp.Looks :=
  (read_looks p).bind fun content => by split <;> simp

theorem loadJson_looks (p : Path) : (loadJson p).Only OsOp.Looks :=
  (readText_looks p).bind fun s => by split <;> simp

theorem readPhone_looks (paths : InstancePaths) (name : String) :
    (readPhone paths name).Only OsOp.Looks :=
  ((lstat_looks _).bind fun _ => Prog.only_raise.ite (readText_looks _)).handle fun _ =>
    Prog.only_raise.ite Prog.only_raise

theorem storedArtifacts_looks (paths : InstancePaths) (name : String) :
    (storedArtifacts paths name).Only OsOp.Looks := by
  refine Prog.Only.handle ((lstat_looks _).bind fun _ => Prog.only_raise.ite ?_) fun _ =>
    Prog.only_raise.ite Prog.only_raise
  exact (loadJson_looks _).bind fun _ => (readPhone_looks paths name).bind fun _ => Prog.only_ret

theorem requirePhone_looks (config : ProjectConfig) (paths : InstancePaths) (server : KeyPair)
    (peer : PeerConfig) : (requirePhone config paths server peer).Only OsOp.Looks :=
  (phoneArtifacts_looks config paths peer server).bind fun _ =>
    (storedArtifacts_looks paths peer.name).bind fun _ => Prog.only_raise.ite Prog.only_ret

theorem requireSelected_looks (config : ProjectConfig) (paths : InstancePaths)
    (peers : List PeerConfig) : (requireSelected config paths peers).Only OsOp.Looks :=
  (loadServer_looks paths).bind fun server =>
    Prog.only_forEach (fun peer => requirePhone_looks config paths server peer) peers

theorem validateSelectedKeys_looks (paths : InstancePaths) (selected : List PeerConfig) :
    (validateSelectedKeys paths selected).Only OsOp.Looks :=
  (loadServer_looks paths).bind fun _ =>
    Prog.only_forEach (fun _ => (loadPeer_looks paths _).bind fun _ => Prog.only_ret) selected

theorem validatePhoneSnapshot_looks (config : ProjectConfig) (selected : List PeerConfig)
    (paths : InstancePaths) : (validatePhoneSnapshot config selected paths).Only OsOp.Looks :=
  (validateSelectedKeys_looks paths selected).bind fun _ => requireSelected_looks config paths selected

theorem validateSnapshot_looks (config : ProjectConfig) (paths : InstancePaths) :
    (validateSnapshot config paths).Only OsOp.Looks :=
  (validateSelectedKeys_looks paths _).bind fun _ => requireSelected_looks config paths _

theorem validateAvailableKeys_looks (config : ProjectConfig) (paths : InstancePaths) :
    (validateAvailableKeys config paths).Only OsOp.Looks := by
  refine (loadServer_looks paths).bind fun _ => Prog.only_forEach (fun peer => ?_) _
  refine (keyStatus_looks _ _).bind fun status => ?_
  cases status with
  | missing => exact Prog.only_ret
  | incomplete => exact Prog.only_raise
  | complete => exact (loadPeer_looks paths _).bind fun _ => Prog.only_ret

/-- The key a validator lets through. -/
theorem yields_validated {value label : String} {f : String → OsM α} {Q : α → Tree → Prop}
    (h : Valid value → (f value).Yields machine Q t) :
    ((Prog.ofExcept (validateWireguardKey value label)).bind f).Yields machine Q t := by
  cases hv : validateWireguardKey value label with
  | error e => exact Prog.yields_raise
  | ok key =>
    obtain ⟨rfl, hvalid⟩ := valid_of_accepted hv
    exact h hvalid

theorem readPublicKey_yields (p : Path) (label : String) (t : Tree) :
    (readPublicKey p label).Yields machine (fun key u => u = t ∧ HoldsLine t p key ∧ Valid key) t := by
  refine Prog.yields_bind ((requireRegularFile_yields p label t).mono fun _ u ⟨hu, _⟩ => ?_)
  subst hu
  refine Prog.yields_bind ((readLine_yields p label u).mono fun value v ⟨hv, hline⟩ => ?_)
  subst hv
  cases hk : validateWireguardKey value label with
  | error e => exact Prog.yields_raise
  | ok key =>
    obtain ⟨rfl, hvalid⟩ := valid_of_accepted hk
    exact Prog.yields_ret ⟨rfl, hline, hvalid⟩

theorem loadPair_yields (d : Path) (owner : String) (t : Tree) :
    (loadPair d owner).Yields machine (fun pair u => u = t ∧ Paired t.get d pair) t := by
  refine Prog.yields_bind ((readTextSecret_yields _ _ t).mono fun priv u ⟨hu, hpriv⟩ => ?_)
  subst hu
  refine yields_validated fun hvalid => Prog.yields_bind ((readPublicKey_yields _ _ u).mono
    fun pub v ⟨hv, hpub, hvalid'⟩ => ?_)
  subst hv
  exact Prog.yields_ret ⟨rfl, hpriv, hpub, hvalid, hvalid'⟩

theorem loadServer_yields (paths : InstancePaths) (t : Tree) : (loadServer paths).Yields machine
    (fun pair u => u = t ∧ Paired t.get paths.serverDir pair) t := by
  refine Prog.yields_bind ((yields_of_reads (looks_reads (keyStatus_looks _ _))
    (Prog.yields_trivial _ t)).mono fun status u ⟨hu, _⟩ => ?_)
  subst hu
  exact Prog.yields_ite (fun _ => Prog.yields_bind Prog.yields_raise) fun _ =>
    loadPair_yields _ _ u

theorem loadPeer_yields (paths : InstancePaths) (name : String) (t : Tree) :
    (loadPeer paths name).Yields machine
      (fun keys u => u = t ∧ Provisioned t.get (paths.peerDir name) keys.1 keys.2) t := by
  refine Prog.yields_bind ((yields_of_reads (looks_reads (keyStatus_looks _ _))
    (Prog.yields_trivial _ t)).mono fun status u ⟨hu, _⟩ => ?_)
  subst hu
  refine Prog.yields_ite (fun _ => Prog.yields_bind Prog.yields_raise) fun _ => ?_
  refine Prog.yields_bind ((loadPair_yields _ _ u).mono fun pair v ⟨hv, hpair⟩ => ?_)
  subst hv
  refine Prog.yields_bind ((readTextSecret_yields _ _ v).mono fun preshared w ⟨hw, hline⟩ => ?_)
  subst hw
  exact yields_validated fun hvalid => Prog.yields_ret ⟨rfl, hpair, hline, hvalid⟩

theorem phoneArtifacts_yields (config : ProjectConfig) (paths : InstancePaths) (peer : PeerConfig)
    (server : KeyPair) (t : Tree) : (phoneArtifacts config paths peer server).Yields machine
      (fun artifacts u => u = t ∧ ∃ pair preshared,
        Provisioned t.get (paths.peerDir peer.name) pair preshared ∧
        artifacts.1 = renderPhoneConfig config peer server.pub pair.priv preshared) t := by
  refine Prog.yields_bind ((loadPeer_yields paths peer.name t).mono fun keys u ⟨hu, hkeys⟩ => ?_)
  subst hu
  cases hf : phoneFingerprint config peer server.pub keys.1.pub keys.2 with
  | error e =>
    simp only [hf]
    exact Prog.yields_raise
  | ok fingerprint =>
    simp only [hf]
    exact Prog.yields_ret ⟨rfl, keys.1, keys.2, hkeys, rfl⟩

theorem readText_yields (p : Path) (t : Tree) : (readText p).Yields machine
    (fun text u => u = t ∧ Text (t.get p) text) t := by
  refine Prog.yields_bind (Prog.yields_perform fun content u h => ?_)
  obtain ⟨rfl, m, hp⟩ := (Step.ok h).read
  split
  · rename_i s hs
    exact Prog.yields_ret ⟨rfl, m, content, s, hp, hs, rfl⟩
  · exact Prog.yields_raise

theorem readPhone_yields (paths : InstancePaths) (name : String) (t : Tree) :
    (readPhone paths name).Yields machine
      (fun text u => u = t ∧ Text (t.get (paths.peerDir name / phoneConfig)) text) t := by
  refine Prog.yields_handle (Prog.yields_bind (Prog.yields_perform fun st u h => ?_)) fun _ _ =>
    Prog.yields_ite (fun _ => Prog.yields_raise) fun _ => Prog.yields_raise
  obtain ⟨rfl, -⟩ := (Step.ok h).lstat
  exact Prog.yields_ite (fun _ => Prog.yields_bind Prog.yields_raise) fun _ => readText_yields _ u

theorem storedArtifacts_yields (paths : InstancePaths) (name : String) (t : Tree) :
    (storedArtifacts paths name).Yields machine (fun artifacts u => u = t ∧
      Text (t.get (paths.peerDir name / phoneConfig)) artifacts.2) t := by
  refine Prog.yields_handle (Prog.yields_bind (Prog.yields_perform fun st u h => ?_)) fun _ _ =>
    Prog.yields_ite (fun _ => Prog.yields_raise) fun _ => Prog.yields_raise
  obtain ⟨rfl, -⟩ := (Step.ok h).lstat
  refine Prog.yields_ite (fun _ => Prog.yields_bind Prog.yields_raise) fun _ => ?_
  refine Prog.yields_bind ((loadJson_yields _ u).mono fun value v ⟨hv, _⟩ => ?_)
  subst hv
  exact Prog.yields_bind ((readPhone_yields paths name v).mono fun text w htext =>
    Prog.yields_ret htext)

theorem requirePhone_yields (config : ProjectConfig) (paths : InstancePaths) (server : KeyPair)
    (peer : PeerConfig) (t : Tree) {data : Path} :
    (requirePhone config (paths.withData data) server peer).Yields machine
      (fun _ u => u = t ∧ PhoneCurrent config (dataAt t data) server peer) t := by
  refine Prog.yields_bind ((phoneArtifacts_yields config _ peer server t).mono
    fun artifacts u ⟨hu, pair, preshared, hkeys, hrendered⟩ => ?_)
  subst hu
  refine Prog.yields_bind ((storedArtifacts_yields _ peer.name u).mono fun stored v ⟨hv, htext⟩ => ?_)
  subst hv
  refine Prog.yields_ite (fun _ => Prog.yields_raise) fun hgood => Prog.yields_ret ⟨rfl, ?_⟩
  have hsame : stored.2 = artifacts.1 := by
    by_contra hne
    exact hgood (by simp [hne])
  exact ⟨pair, preshared, ⟨⟨hkeys.pair.priv, hkeys.pair.pub, hkeys.pair.validPriv, hkeys.pair.validPub⟩,
    hkeys.line, hkeys.valid⟩, hrendered ▸ hsame ▸ htext⟩

/-- What the requirement of the selected peers has found. -/
theorem requireSelected_yields (config : ProjectConfig) (paths : InstancePaths)
    (peers : List PeerConfig) (t : Tree) {data : Path} :
    (requireSelected config (paths.withData data) peers).Yields machine (fun _ u => u = t ∧
      ∃ server, Paired (dataAt t data) serverAt server ∧
        ∀ peer ∈ peers, PhoneCurrent config (dataAt t data) server peer) t := by
  refine Prog.yields_bind ((loadServer_yields _ t).mono fun server u ⟨hu, hserver⟩ => ?_)
  subst hu
  -- the peers before those that are left have been found current
  refine (Prog.yields_forEach (fun rest v => v = u ∧ ∀ peer ∈ peers, peer ∈ rest ∨
    PhoneCurrent config (dataAt u data) server peer) (fun peer rest v ⟨hv, hall⟩ => ?_) peers u
    ⟨rfl, fun peer hpeer => .inl hpeer⟩).mono fun _ v ⟨hv, hall⟩ => ⟨hv, server,
      ⟨hserver.priv, hserver.pub, hserver.validPriv, hserver.validPub⟩, fun peer hpeer =>
        (hall peer hpeer).resolve_left List.not_mem_nil⟩
  subst hv
  refine (requirePhone_yields config paths server peer v).mono fun _ w ⟨hw, hcurrent⟩ => ⟨hw, ?_⟩
  intro other hother
  rcases hall other hother with hmem | hfound
  · rcases List.mem_cons.mp hmem with rfl | hmem
    · exact .inr hcurrent
    · exact .inl hmem
  · exact .inr hfound

end

end Keys
end ShuttleGate
