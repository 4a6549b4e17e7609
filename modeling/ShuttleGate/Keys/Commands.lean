import ShuttleGate.Keys.Making
import ShuttleGate.State.Content

/-! # The key commands as calls

Each command is a call of `mutate_state` with its own mutator and validator. A history is made of
commands one after the other, each stopped anywhere. -/

namespace ShuttleGate

open Fs Effect Os Files State

namespace Keys

/-- The commands that change the keys and what is derived from them, each with the configuration it
has read. -/
inductive Command
  | generate (config : ProjectConfig) (runner : Runner) (peerName : Option String)
  | regenerate (config : ProjectConfig) (name : String)
  | rotatePeer (config : ProjectConfig) (runner : Runner) (name operationId : String)
  | rotateServer (config : ProjectConfig) (runner : Runner) (operationId : String)
  | prune (config : ProjectConfig)

namespace Command

def Result : Command → Type
  | generate .. | prune _ => List String
  | regenerate .. | rotatePeer .. | rotateServer .. => Unit

def run : (cmd : Command) → InstancePaths → OsM cmd.Result
  | generate config runner peerName, paths => generateMissingKeys config paths runner peerName
  | regenerate config name, paths => regeneratePhoneConfig config paths name
  | rotatePeer config runner name operationId, paths =>
    Keys.rotatePeer config paths runner name operationId
  | rotateServer config runner operationId, paths => Keys.rotateServer config paths runner operationId
  | prune config, paths => pruneOrphanedPeers config paths

/-- Who makes its keys. -/
def runner : Command → Option Runner
  | generate _ runner _ | rotatePeer _ runner _ _ | rotateServer _ runner _ => some runner
  | regenerate .. | prune _ => none

end Command

/-! ## Mutators stay in their directory -/

section
variable {D : Path}

theorem write_within (o : Owner) (n : String) (content : Bytes) (mode : Nat) :
    (atomicWriteBytes (n :: (o.dir ++ D)) content mode).Only (Within (D <:+ ·) D) := by
  refine atomicWriteBytes_within (fun q hq => ?_) (fun q hq => (List.suffix_append _ _).trans hq) _ _
  exact (List.suffix_or_suffix_of_suffix (List.suffix_append o.dir D) hq)

theorem renderPhoneConfigs_within (config : ProjectConfig) (peers : List PeerConfig)
    (paths : InstancePaths) :
    (renderPhoneConfigs config (paths.withData D) peers).Only (Within (D <:+ ·) D) := by
  refine (reads_to_within (looks_reads (loadServer_looks _))).bind fun server =>
    Prog.only_forEach (fun peer => ?_) peers
  refine (reads_to_within (looks_reads (phoneArtifacts_looks config _ peer server))).bind
    fun artifacts => ?_
  exact (write_within (.peer peer.name) phoneConfig _ _).bind fun _ =>
    write_within (.peer peer.name) fingerprintFile _ _

theorem generatedKey_reads (runner : Runner) (command : String) (input : Option String)
    (label : String) : (generatedKey runner command input label).Only OsOp.Reads :=
  (runner.reads _ _).bind fun _ => Prog.only_ofExcept _

theorem generateKeyPair_reads (runner : Runner) : (generateKeyPair runner).Only OsOp.Reads :=
  (generatedKey_reads ..).bind fun _ => (generatedKey_reads ..).bind fun _ => Prog.only_ret

theorem rotatePeerIn_within (config : ProjectConfig) (runner : Runner) (peer : PeerConfig)
    (paths : InstancePaths) :
    (rotatePeerIn config runner peer (paths.withData D)).Only (Within (D <:+ ·) D) := by
  refine (reads_to_within (generateKeyPair_reads runner)).bind fun pair =>
    (reads_to_within (generatedKey_reads ..)).bind fun preshared => ?_
  exact (write_within (.peer peer.name) publicKey _ _).bind fun _ =>
    (write_within (.peer peer.name) presharedKey _ _).bind fun _ =>
      (write_within (.peer peer.name) privateKey _ _).bind fun _ =>
        renderPhoneConfigs_within config [peer] paths

theorem rotateServerIn_within (config : ProjectConfig) (runner : Runner) (paths : InstancePaths) :
    (rotateServerIn config runner (paths.withData D)).Only (Within (D <:+ ·) D) := by
  refine (reads_to_within (generateKeyPair_reads runner)).bind fun pair => ?_
  exact (write_within .server publicKey _ _).bind fun _ =>
    (write_within .server privateKey _ _).bind fun _ => renderPhoneConfigs_within config _ paths

theorem generateServerKeys_within (runner : Runner) (paths : InstancePaths) :
    (generateServerKeys (paths.withData D) runner).Only (Within (D <:+ ·) D) := by
  refine (reads_to_within (looks_reads (keyStatus_looks _ _))).bind fun status => ?_
  cases status with
  | incomplete => exact Prog.only_raise
  | complete => exact Prog.only_ret
  | missing =>
    refine (reads_to_within (generateKeyPair_reads runner)).bind fun pair => ?_
    exact (write_within .server privateKey _ _).bind fun _ =>
      (write_within .server publicKey _ _).bind fun _ => Prog.only_ret

theorem generatePeerKeys_within (runner : Runner) (peer : PeerConfig) (paths : InstancePaths) :
    (generatePeerKeys (paths.withData D) runner peer).Only (Within (D <:+ ·) D) := by
  refine (reads_to_within (looks_reads (keyStatus_looks _ _))).bind fun status => ?_
  cases status with
  | incomplete => exact Prog.only_raise
  | complete => exact Prog.only_ret
  | missing =>
    refine (reads_to_within (generateKeyPair_reads runner)).bind fun pair =>
      (reads_to_within (generatedKey_reads ..)).bind fun preshared => ?_
    exact (write_within (.peer peer.name) privateKey _ _).bind fun _ =>
      (write_within (.peer peer.name) publicKey _ _).bind fun _ =>
        (write_within (.peer peer.name) presharedKey _ _).bind fun _ => Prog.only_ret

theorem generateAll_only {P : {β : Type} → OsOp β → Prop} {make : PeerConfig → OsM (List String)}
    (h : ∀ peer, (make peer).Only P) : ∀ peers, (generateAll make peers).Only P
  | [] => Prog.only_ret
  | peer :: peers => (h peer).bind fun _ => (generateAll_only h peers).bind fun _ => Prog.only_ret

theorem generateFrom_within (config : ProjectConfig) (runner : Runner) (selected : List PeerConfig)
    (paths : InstancePaths) :
    (generateFrom config runner selected (paths.withData D)).Only (Within (D <:+ ·) D) := by
  refine (generateServerKeys_within runner paths).bind fun server =>
    (generateAll_only (fun peer => generatePeerKeys_within runner peer paths) selected).bind fun peers => ?_
  exact (reads_to_within (looks_reads (validateSelectedKeys_looks _ selected))).bind fun _ =>
    (renderPhoneConfigs_within config selected paths).bind fun _ => Prog.only_ret

theorem pruneEach_within (declared : List String) (root : Path) (hroot : D <:+ root) :
    ∀ names, (pruneEach declared root names).Only (Within (D <:+ ·) D)
  | [] => Prog.only_ret
  | name :: names => by
    have hlooks : (isUnexpected (root / name)).Only OsOp.Reads := (isSymlink_reads _).bind fun _ =>
      Prog.only_ret.ite ((Prog.only_perform.mpr fun _ => id).bind fun _ => Prog.only_ret)
    have hremove : (rmtree (root / name)).Only (Within (D <:+ ·) D) :=
      (rmtree_below _).mono fun _ hop => hop.within fun q hq =>
        (hroot.trans (List.suffix_cons name root)).trans hq
    refine Prog.Only.ite (pruneEach_within declared root hroot names) ?_
    refine (reads_to_within hlooks).bind fun unexpected => Prog.only_raise.ite ?_
    exact hremove.bind fun _ => (pruneEach_within declared root hroot names).bind fun _ => Prog.only_ret

theorem pruneIn_within (config : ProjectConfig) (paths : InstancePaths) :
    (pruneIn config (paths.withData D)).Only (Within (D <:+ ·) D) := by
  refine (reads_within).bind fun there => Prog.only_ret.ite ?_
  refine (reads_within).bind fun names => ?_
  exact (pruneEach_within _ _ (List.suffix_cons "peers" D) names).bind fun _ => Prog.only_ret

end

/-! ## The calls -/

/-- The call of `generate_missing_keys`. The directory of the state is private already: to ensure it
again changes nothing, and may fail. -/
def generateCall (config : ProjectConfig) (runner : Runner) (selected : List PeerConfig) :
    Call (List String) where
  mutator snapshot := (Prog.perform (.run [] none)).bind fun _ =>
    generateFrom config runner selected snapshot
  validator := validatePhoneSnapshot config selected
  publishIf := none
  operation := none
  mutator_within paths _ := (reads_within).bind fun _ => generateFrom_within config runner selected paths
  validator_reads paths := looks_reads (validatePhoneSnapshot_looks config selected paths)

def regenerateCall (config : ProjectConfig) (selected : List PeerConfig) : Call Unit where
  mutator snapshot := renderPhoneConfigs config snapshot selected
  validator := validatePhoneSnapshot config selected
  publishIf := none
  operation := none
  mutator_within paths _ := renderPhoneConfigs_within config selected paths
  validator_reads paths := looks_reads (validatePhoneSnapshot_looks config selected paths)

def rotatePeerCall (config : ProjectConfig) (runner : Runner) (peer : PeerConfig)
    (operation : StateOperation Unit) : Call Unit where
  mutator := rotatePeerIn config runner peer
  validator := validatePhoneSnapshot config [peer]
  publishIf := none
  operation := some operation
  mutator_within paths _ := rotatePeerIn_within config runner peer paths
  validator_reads paths := looks_reads (validatePhoneSnapshot_looks config [peer] paths)

def rotateServerCall (config : ProjectConfig) (runner : Runner) (operation : StateOperation Unit) :
    Call Unit where
  mutator := rotateServerIn config runner
  validator := validateSnapshot config
  publishIf := none
  operation := some operation
  mutator_within paths _ := rotateServerIn_within config runner paths
  validator_reads paths := looks_reads (validateSnapshot_looks config paths)

def pruneCall (config : ProjectConfig) : Call (List String) where
  mutator := pruneIn config
  validator := validateAvailableKeys config
  publishIf := some fun removed => !removed.isEmpty
  operation := none
  mutator_within paths _ := pruneIn_within config paths
  validator_reads paths := looks_reads (validateAvailableKeys_looks config paths)

namespace Command

/-- The call a command comes to, unless its arguments are refused. -/
def call : (cmd : Command) → Except Exn (Call cmd.Result)
  | generate config runner peerName => (selectedPeers config peerName).bind fun selected =>
    .ok (generateCall config runner selected)
  | regenerate config name => (selectedPeers config (some name)).bind fun selected =>
    .ok (regenerateCall config selected)
  | rotatePeer config runner name operationId => (selectedPeer config name).bind fun peer =>
    (voidOperation operationId s!"keys.rotate-peer.{name}").bind fun operation =>
      .ok (rotatePeerCall config runner peer operation)
  | rotateServer config runner operationId =>
    (voidOperation operationId "keys.rotate-server").bind fun operation =>
      .ok (rotateServerCall config runner operation)
  | prune config => .ok (pruneCall config)

/-- The program of a call. -/
def issue (paths : InstancePaths) : Except Exn (Call α) → OsM α
  | .ok call => call.run paths
  | .error e => Prog.raise e

theorem follows_issue {paths : InstancePaths} {x : Except Exn β} {p : β → OsM α}
    {f : β → Except Exn (Call α)}
    (h : ∀ b, Prog.Follows machine (p b) (issue paths (f b)) t) :
    Prog.Follows machine ((Prog.ofExcept x).bind p) (issue paths (x.bind f)) t := by
  cases x with
  | ok b => exact h b
  | error e => exact .refl _ _

/-- The mutator of `generate_missing_keys` does what the one of its call does. -/
theorem generateMissing_follows (config : ProjectConfig) (runner : Runner) (selected : List PeerConfig)
    (paths : InstancePaths) {t : Tree} (h : t.get paths.state = some (.dir 0o700)) :
    Prog.Follows machine (generateMissing config runner selected (paths.withData D))
      ((generateCall config runner selected).mutator (paths.withData D)) t := by
  have hrun (r : Except Exn Unit) : ((Prog.perform (.run [] none) : OsM CommandResult).bind
      fun _ => Prog.ret ()).Returns machine t r t := by
    cases r with
    | ok _ => exact .step (r := .ok ⟨0, "", ""⟩) (.answered ⟨rfl, _, rfl⟩) .refl
    | error e => exact .step (r := .error e) (.raised trivial) .refl
  have hfollows := (Prog.follows_of_still (ensurePrivateDirectory_still h) hrun).bind
    fun _ => generateFrom config runner selected (paths.withData D)
  have hassoc (p : OsM CommandResult) (q : OsM (List String)) :
      (p.bind fun _ => (Prog.ret () : OsM Unit)).bind (fun _ => q) = p.bind fun _ => q := by
    induction p with
    | ret a => rfl
    | raise e => rfl
    | call op k ih => exact congrArg (Prog.call op) (funext ih)
  rw [hassoc] at hfollows
  exact hfollows

/-- A command does what its call does. -/
theorem follows (cmd : Command) (paths : InstancePaths) (t : Tree) :
    Prog.Follows machine (cmd.run paths) (issue paths cmd.call) t := by
  cases cmd with
  | generate config runner peerName =>
    exact follows_issue fun selected => mutateState_follows t fun _ _ hu =>
      generateMissing_follows config runner selected paths hu
  | regenerate config name => exact follows_issue fun _ => .refl _ _
  | rotatePeer config runner name operationId =>
    exact follows_issue fun _ => follows_issue fun _ => .refl _ _
  | rotateServer config runner operationId => exact follows_issue fun _ => .refl _ _
  | prune config => exact .refl _ _

end Command

end Keys
end ShuttleGate
