import ShuttleGate.Render.Entries

/-! # Cryptokey routing

The validators compare the addresses of the peers without their zones; the server configuration
has the texts of the interfaces. Where no peer address carries a zone, the entries read back from
the rendered text are the peers' host addresses, and no source address belongs to two of them. -/

namespace ShuttleGate

open Net

/-! ## What the validators establish -/

/-- A peer address as the checks over all peers leave it. -/
structure CheckedAddress (gateways : List IPInterface) (i : IPInterface) : Prop where
  inside : ∃ gateway ∈ gateways, gateway.network.contains i.ip = true
  fresh : i.ip ∉ gateways.map (·.ip)

theorem checkPeerAddresses_ok {gateways addresses : List IPInterface} {seen seen' : List IPAddress}
    (h : WireGuardConfig.checkPeerAddresses gateways peer seen addresses = .ok seen') :
    (∀ i ∈ addresses, CheckedAddress gateways i ∧ i.ip ∉ seen) ∧ (addresses.map (·.ip)).Nodup ∧
      ∀ a, a ∈ seen' ↔ a ∈ addresses.map (·.ip) ∨ a ∈ seen := by
  induction addresses generalizing seen with
  | nil =>
    cases h
    simp
  | cons i rest ih =>
    rw [WireGuardConfig.checkPeerAddresses, raiseIf_bind_eq_ok] at h
    obtain ⟨-, h⟩ := h
    cases hg : gateways.find? (·.version = i.version) with
    | none => rw [hg] at h; cases h
    | some gateway =>
      simp only [hg, raiseIf_bind_eq_ok, not_not] at h
      obtain ⟨hinside, hfresh, hseen, h⟩ := h
      obtain ⟨hrest, hnodup, hmem⟩ := ih h
      refine ⟨List.forall_mem_cons.mpr ⟨⟨⟨⟨gateway, List.mem_of_find?_eq_some hg, hinside⟩, hfresh⟩,
        hseen⟩, fun j hj => ?_⟩, List.nodup_cons.mpr ⟨fun hdup => ?_, hnodup⟩, fun a => ?_⟩
      · exact ⟨(hrest j hj).1, fun hs => (hrest j hj).2 (List.mem_cons_of_mem _ hs)⟩
      · obtain ⟨j, hj, heq⟩ := List.mem_map.mp hdup
        exact (hrest j hj).2 (heq ▸ List.mem_cons_self)
      · rw [hmem, List.map_cons, List.mem_cons, List.mem_cons]
        tauto

theorem checkPeers_ok {gateways : List IPInterface} {peers : List PeerConfig}
    (h : WireGuardConfig.checkPeers gateways names seen peers = .ok ()) :
    (∀ i ∈ peers.flatMap (·.addresses), CheckedAddress gateways i ∧ i.ip ∉ seen) ∧
      ((peers.flatMap (·.addresses)).map (·.ip)).Nodup := by
  induction peers generalizing names seen with
  | nil => simp
  | cons peer rest ih =>
    rw [WireGuardConfig.checkPeers, raiseIf_bind_eq_ok] at h
    obtain ⟨-, h⟩ := h
    obtain ⟨seen', hpeer, h⟩ := bind_eq_ok.mp h
    obtain ⟨haddresses, hnodup, hmem⟩ := checkPeerAddresses_ok hpeer
    obtain ⟨hrest, hnodup'⟩ := ih h
    rw [List.flatMap_cons, List.map_append]
    refine ⟨fun i hi => ?_, List.nodup_append'.mpr ⟨hnodup, hnodup', fun a ha ha' => ?_⟩⟩
    · rcases List.mem_append.mp hi with hi | hi
      · exact haddresses i hi
      · exact ⟨(hrest i hi).1, fun hs => (hrest i hi).2 ((hmem _).mpr (.inr hs))⟩
    · obtain ⟨i, hi, rfl⟩ := List.mem_map.mp ha'
      exact (hrest i hi).2 ((hmem _).mpr (.inl ha))

theorem checkAddresses_ok {addresses : List IPInterface}
    (h : PeerConfig.checkAddresses families addresses = .ok ()) :
    ∀ i ∈ addresses, i.prefixlen = i.version.width := by
  induction addresses generalizing families with
  | nil => simp
  | cons i rest ih =>
    simp only [PeerConfig.checkAddresses, raiseIf_bind_eq_ok, not_not] at h
    refine List.forall_mem_cons.mpr ⟨?_, ih h.2.2⟩
    rw [← h.2.1, IPInterface.network, prefixlen_ipNetwork]

theorem forM_ok {f : α → Except ε Unit} {l : List α} (h : l.forM f = .ok ()) :
    ∀ a ∈ l, f a = .ok () := by
  induction l with
  | nil => simp
  | cons a l ih =>
    obtain ⟨ha, hl⟩ := seq_eq_ok.mp (show (f a >>= fun _ => l.forM f) = .ok () from h)
    exact List.forall_mem_cons.mpr ⟨ha, ih hl⟩

/-- The peers' addresses, in order. -/
def ProjectConfig.peerAddresses (config : ProjectConfig) : List IPInterface :=
  config.wireguard.peers.flatMap (·.addresses)

namespace CheckedConfig

variable [UnicodeDb] (config : CheckedConfig)

/-- What acceptance says of one peer's own fields. -/
theorem peer_checked (h : peer ∈ config.wireguard.peers) :
    peerPattern peer.name = true ∧ peer.addresses ≠ [] ∧
      ∀ i ∈ peer.addresses, i.prefixlen = i.version.width := by
  have hall := config.checks.1
  simp only [WireGuardConfig.check, seq_eq_ok] at hall
  have hpeer := forM_ok hall.2.2.2.2.1 peer h
  simp only [PeerConfig.check, seq_eq_ok, raiseIf_eq_ok, not_not, Bool.not_eq_true] at hpeer
  obtain ⟨hname, -, hne, haddresses⟩ := hpeer
  exact ⟨by simpa using hname, hne, checkAddresses_ok haddresses⟩

theorem peers_ne_nil : config.wireguard.peers ≠ [] := by
  have h := config.wireguard_network
  simp only [WireGuardConfig.checkNetwork, seq_eq_ok, raiseIf_eq_ok] at h
  exact h.2.2.2.2.1

/-- DNS is enabled when there is an upstream. -/
theorem dns_enabled_iff : config.dns.enabled = true ↔ config.dns.upstream ≠ none := by
  have h := config.accepted
  simp only [ProjectConfig.check, seq_eq_ok] at h
  obtain ⟨-, -, -, -, -, hdns, -⟩ := h
  simp only [DNSConfig.check, seq_eq_ok, raiseIf_eq_ok, not_and, not_not] at hdns
  exact ⟨hdns.1, fun hsome => by_contra fun hdisabled => hsome (hdns.2.1 hdisabled)⟩

theorem gatewayAddresses_ne_nil : config.wireguard.gatewayAddresses ≠ [] := by
  have h := config.wireguard_network
  simp only [WireGuardConfig.checkNetwork, seq_eq_ok, raiseIf_eq_ok] at h
  exact h.2.2.2.1

theorem effectiveRoutes_ne_nil : config.effectiveRoutes ≠ [] := by
  have h := config.checks.2.2.1
  simp only [RoutingConfig.check, seq_eq_ok, raiseIf_eq_ok, not_and] at h
  unfold ProjectConfig.effectiveRoutes
  split
  · next hmode => exact h.1 hmode
  · intro hnil
    obtain ⟨h4, h6⟩ := List.append_eq_nil_iff.mp hnil
    obtain ⟨g, gs, hgs⟩ := List.exists_cons_of_ne_nil config.gatewayAddresses_ne_nil
    have hg : g.version ∈ config.gatewayFamilies := by
      rw [ProjectConfig.gatewayFamilies, hgs]
      exact List.mem_cons_self
    cases hv : g.version with
    | v4 => rw [hv] at hg; simp [hg] at h4
    | v6 => rw [hv] at hg; simp [hg] at h6

theorem peerAddresses_checked :
    (∀ i ∈ config.peerAddresses, i.prefixlen = i.version.width ∧
      CheckedAddress config.wireguard.gatewayAddresses i) ∧
    (config.peerAddresses.map (·.ip)).Nodup := by
  have h := config.wireguard_network
  simp only [WireGuardConfig.checkNetwork, seq_eq_ok] at h
  obtain ⟨hall, hnodup⟩ := checkPeers_ok h.2.2.2.2.2.2
  refine ⟨fun i hi => ⟨?_, (hall i hi).1⟩, hnodup⟩
  obtain ⟨peer, hpeer, hi⟩ := List.mem_flatMap.mp hi
  exact (config.peer_checked hpeer).2.2 i hi

end CheckedConfig

/-- A host's network holds its address only. -/
theorem ip_of_contains {i : IPInterface} (hwidth : i.prefixlen = i.version.width)
    (h : i.network.contains a = true) : i.ip = a.withoutScope := by
  obtain ⟨hv, hm⟩ := contains_ipNetwork.mp h
  have hvalue : i.address.value = a.value := by
    have hzero : i.address.version.width - i.prefixlen = 0 := by
      rw [hwidth]
      exact Nat.sub_self _
    rw [hzero] at hm
    simpa [Block.Mem] using hm.symm
  rw [IPInterface.ip]
  cases haddress : i.address <;> cases a <;> rw [haddress] at hv hvalue
  · exact congrArg IPAddress.v4 (BitVec.eq_of_toNat_eq hvalue)
  · cases hv
  · cases hv
  · exact congrArg (IPAddress.v6 · none) (BitVec.eq_of_toNat_eq hvalue)

/-! ## The lines of the server configuration -/

/-- The values of every AllowedIPs line of a text, one list a line. -/
def allowedIPs (text : String) : List (List String) :=
  ((text.toList.splitOn '\n').map (entries "AllowedIPs")).filter (· ≠ [])

/-- The same for one string that may have line breaks. -/
def lineAllowedIPs (line : String) : List (List String) :=
  ((line.toList.splitOn '\n').map (entries "AllowedIPs")).filter (· ≠ [])

theorem splitOn_lines (lines : List (List Char)) :
    ((['\n'].intercalate lines) ++ ['\n']).splitOn '\n' =
      (if lines = [] then [[]] else lines.flatMap (·.splitOn '\n')) ++ [[]] := by
  induction lines with
  | nil => rfl
  | cons l lines ih =>
    cases lines with
    | nil =>
      rw [List.intercalate_singleton, List.splitOn_append_cons_self]
      simp
    | cons m lines =>
      rw [List.intercalate_cons_cons, List.append_assoc, List.append_assoc, List.singleton_append,
        List.splitOn_append_cons_self, ih, if_neg (by simp), if_neg (by simp),
        List.flatMap_cons (x := l), List.append_assoc]

/-- The lines of a text are read one by one. -/
theorem allowedIPs_text {lines : List String} (h : lines ≠ []) :
    allowedIPs ("\n".intercalate lines ++ "\n") = lines.flatMap lineAllowedIPs := by
  have hlast : entries "AllowedIPs" [] = [] := rfl
  rw [allowedIPs, String.toList_append, String.toList_intercalate]
  change List.filter _ (List.map _ ((['\n'].intercalate (lines.map String.toList) ++ ['\n']).splitOn
    '\n')) = _
  rw [splitOn_lines, if_neg (by simpa using h), List.map_append, List.filter_append,
    List.map_singleton, hlast, List.flatMap_map, List.map_flatMap, List.filter_flatMap]
  exact List.append_nil _

theorem lineAllowedIPs_eq_nil {line : String} (hline : '\n' ∉ line.toList)
    (h : entries "AllowedIPs" line.toList = []) : lineAllowedIPs line = [] := by
  rw [lineAllowedIPs, List.splitOn_eq_singleton hline]
  simp [h]

/-- A line with another head and no line break is not read. -/
theorem lineAllowedIPs_other {head rest : String}
    (hhead : mismatch ("AllowedIPs" ++ " = ").toList head.toList = true ∧ '\n' ∉ head.toList)
    (hrest : '\n' ∉ rest.toList) : lineAllowedIPs (head ++ rest) = [] := by
  refine lineAllowedIPs_eq_nil ?_ (entries_eq_nil hhead.1 rest)
  rw [String.toList_append, List.mem_append]
  exact fun h => h.elim hhead.2 hrest

/-- The AllowedIPs line of a peer. -/
def allowedIPsLine (peer : PeerConfig) : String :=
  "AllowedIPs = " ++ ", ".intercalate (peer.addresses.map (·.text))

/-- Of the lines of a peer only the AllowedIPs line is read. -/
theorem serverPeerLines_allowedIPs {peer : PeerConfig} {publicKey presharedKey : String}
    (hname : '\n' ∉ peer.name.toList) (hpublic : '\n' ∉ publicKey.toList)
    (hpreshared : '\n' ∉ presharedKey.toList) :
    (serverPeerLines peer publicKey presharedKey).flatMap lineAllowedIPs =
      lineAllowedIPs (allowedIPsLine peer) := by
  have hempty : lineAllowedIPs "" = [] := by decide
  have hpeer : lineAllowedIPs "[Peer]" = [] := by decide
  have hcomment : lineAllowedIPs ("# " ++ peer.name) = [] :=
    lineAllowedIPs_other (by decide) hname
  have hpub : lineAllowedIPs ("PublicKey = " ++ publicKey) = [] :=
    lineAllowedIPs_other (by decide) hpublic
  have hpsk : lineAllowedIPs ("PresharedKey = " ++ presharedKey) = [] :=
    lineAllowedIPs_other (by decide) hpreshared
  change lineAllowedIPs "" ++ (lineAllowedIPs "[Peer]" ++ (lineAllowedIPs ("# " ++ peer.name) ++
    (lineAllowedIPs ("PublicKey = " ++ publicKey) ++
      (lineAllowedIPs ("PresharedKey = " ++ presharedKey) ++
        (lineAllowedIPs (allowedIPsLine peer) ++ []))))) = _
  rw [hempty, hpeer, hcomment, hpub, hpsk, List.append_nil]
  rfl

/-- A successful `mapM` maps. -/
theorem mapM_ok {f : α → Except ε β} {g : α → β} {l : List α} {r : List β}
    (hg : ∀ a b, f a = .ok b → b = g a) (h : l.mapM f = .ok r) :
    (∀ a ∈ l, f a = .ok (g a)) ∧ r = l.map g := by
  induction l generalizing r with
  | nil =>
    cases h
    exact ⟨by simp, rfl⟩
  | cons a l ih =>
    rw [List.mapM_cons] at h
    obtain ⟨b, hb, h⟩ := bind_eq_ok.mp h
    obtain ⟨bs, hbs, h⟩ := bind_eq_ok.mp h
    cases h
    obtain ⟨hl, rfl⟩ := ih hbs
    obtain rfl := hg a b hb
    exact ⟨List.forall_mem_cons.mpr ⟨hb, hl⟩, rfl⟩

/-- The keys of a rendered configuration, and its text. -/
theorem lookup_of_lines {peerKeys : List (String × String × String)} {peer : PeerConfig}
    (h : (match peerKeys.lookup peer.name with
      | none => .error (.error "KeyError")
      | some (publicKey, presharedKey) => .ok (serverPeerLines peer publicKey presharedKey) :
        Except Exn (List String)) = .ok lines) :
    peerKeys.lookup peer.name = some ((peerKeys.lookup peer.name).getD ("", "")) ∧
      lines = serverPeerLines peer ((peerKeys.lookup peer.name).getD ("", "")).1
        ((peerKeys.lookup peer.name).getD ("", "")).2 := by
  cases hlookup : peerKeys.lookup peer.name with
  | none =>
    rw [hlookup] at h
    cases h
  | some pair =>
    rw [hlookup] at h
    exact ⟨rfl, (Except.ok.inj h).symm⟩

theorem renderServerConfig_ok {config : ProjectConfig}
    {peerKeys : List (String × String × String)}
    (h : renderServerConfig config serverPrivateKey peerKeys = .ok text) :
    ∃ keys : PeerConfig → String × String,
      (∀ peer ∈ config.wireguard.peers, peerKeys.lookup peer.name = some (keys peer)) ∧
      text = "\n".intercalate (["[Interface]", "PrivateKey = " ++ serverPrivateKey,
        "ListenPort = " ++ toString config.wireguard.listenPort] ++
        config.wireguard.peers.flatMap fun peer => serverPeerLines peer (keys peer).1 (keys peer).2)
        ++ "\n" := by
  obtain ⟨sections, hsections, htext⟩ := bind_eq_ok.mp h
  let keys := fun peer : PeerConfig => (peerKeys.lookup peer.name).getD ("", "")
  obtain ⟨hall, hmap⟩ := mapM_ok
    (g := fun peer : PeerConfig => serverPeerLines peer (keys peer).1 (keys peer).2)
    (fun peer lines hlines => (lookup_of_lines hlines).2) hsections
  refine ⟨keys, fun peer hpeer => (lookup_of_lines (hall peer hpeer)).1, ?_⟩
  rw [← Except.ok.inj htext, hmap, List.flatMap]
  rfl

/-! ## The AllowedIPs line of a peer -/

/-- The text of a list of interfaces has a zone in its first line, if it has one at all. -/
theorem percent_in_first_line {addresses : List IPInterface}
    (h : ∃ i ∈ addresses, i.address.scopeId ≠ none) :
    '%' ∈ (", ".intercalate (addresses.map (·.text))).toList.takeWhile (· ≠ '\n') := by
  rw [String.toList_intercalate, List.map_map]
  induction addresses with
  | nil => simp at h
  | cons i rest ih =>
    by_cases hi : i.address.scopeId = none
    · -- the text of `i` is on the first line as a whole, and the zone is after it
      have hrest : ∃ j ∈ rest, j.address.scopeId ≠ none := by simpa [hi] using h
      obtain ⟨j, hj, -⟩ := id hrest
      obtain ⟨k, rest, rfl⟩ := List.exists_cons_of_ne_nil (List.ne_nil_of_mem hj)
      have hplain : ∀ c ∈ i.text.toList ++ ", ".toList, decide (c ≠ '\n') = true := by
        intro c hc
        refine decide_eq_true fun hn => ?_
        rcases List.mem_append.mp hc with hc | hc
        · exact absurd (toNat_of_mem_text hi hc).1 (by rw [hn]; decide)
        · rw [hn] at hc
          exact absurd hc (by decide)
      rw [List.map_cons, List.map_cons, List.intercalate_cons_cons]
      change '%' ∈ List.takeWhile _ (i.text.toList ++ ", ".toList ++ _)
      rw [List.takeWhile_append_of_pos hplain]
      exact List.mem_append_right _ (ih hrest)
    · -- nothing before the `%` of the first address breaks the line
      obtain ⟨ip, scope, haddress⟩ : ∃ ip scope, i.address = .v6 ip (some scope) := by
        cases haddress : i.address with
        | v4 ip => rw [haddress] at hi; exact absurd rfl hi
        | v6 ip scope =>
          cases scope with
          | none => rw [haddress] at hi; exact absurd rfl hi
          | some scope => exact ⟨ip, scope, rfl⟩
      have hplain : ∀ c ∈ ipv6Chars ip, decide (c ≠ '\n') = true := by
        intro c hc
        refine decide_eq_true fun hn => ?_
        have := (IPAddress.toNat_of_mem (a := .v6 ip none) rfl hc).1
        rw [hn] at this
        exact absurd this (by decide)
      have htext : ∃ tail, i.text.toList = ipv6Chars ip ++ '%' :: tail := by
        rw [IPInterface.text, toList_prefixText, haddress]
        exact ⟨_, by rw [IPAddress.chars, List.append_assoc, List.cons_append]⟩
      obtain ⟨tail, htext⟩ := htext
      have hfirst (m : List Char) : '%' ∈ (i.text.toList ++ m).takeWhile (· ≠ '\n') := by
        rw [htext, List.append_assoc, List.takeWhile_append_of_pos hplain, List.cons_append,
          List.takeWhile_cons_of_pos (by decide)]
        exact List.mem_append_right _ List.mem_cons_self
      cases rest with
      | nil => simpa using hfirst []
      | cons k rest =>
        rw [List.map_cons, List.map_cons, List.intercalate_cons_cons, List.append_assoc]
        exact hfirst _

theorem head_splitOn (s : List Char) :
    ∃ rest, s.splitOn '\n' = s.takeWhile (· ≠ '\n') :: rest := by
  induction s with
  | nil => exact ⟨[], rfl⟩
  | cons c s ih =>
    obtain ⟨rest, hrest⟩ := ih
    rw [List.splitOn_cons_eq_if_modifyHead]
    by_cases hc : c = '\n'
    · exact ⟨s.splitOn '\n', by simp [hc]⟩
    · exact ⟨rest, by simp [hc, hrest]⟩

/-- With a zone among the addresses some entry read shows it. -/
theorem exists_percent {peer : PeerConfig} (h : ∃ i ∈ peer.addresses, i.address.scopeId ≠ none) :
    ∃ values ∈ lineAllowedIPs (allowedIPsLine peer), ∃ e ∈ values, '%' ∈ e.toList := by
  have hpercent := percent_in_first_line h
  obtain ⟨rest, hsplit⟩ := head_splitOn (allowedIPsLine peer).toList
  let value := ", ".intercalate (peer.addresses.map (·.text))
  have hhead : (allowedIPsLine peer).toList.takeWhile (· ≠ '\n') =
      ("AllowedIPs" ++ " = " ++ String.ofList (value.toList.takeWhile (· ≠ '\n'))).toList := by
    rw [allowedIPsLine, String.toList_append, String.toList_append, String.toList_ofList,
      List.takeWhile_append_of_pos (by decide), String.toList_ofList]
    rfl
  have hvalue : '%' ∈ (String.ofList (value.toList.takeWhile (· ≠ '\n'))).toList := by
    rw [String.toList_ofList]
    exact hpercent
  obtain ⟨e, he, hmem⟩ := exists_entry "AllowedIPs" hvalue (by decide)
  refine ⟨_, List.mem_filter.mpr ⟨List.mem_map_of_mem (hsplit ▸ List.mem_cons_self), ?_⟩, e, ?_, hmem⟩
  · rw [hhead]
    simpa using List.ne_nil_of_mem he
  · rw [hhead]
    exact he

theorem mem_of_mem_intercalate {sep : List α} {ls : List (List α)} (h : a ∈ sep.intercalate ls) :
    a ∈ sep ∨ ∃ l ∈ ls, a ∈ l := by
  induction ls with
  | nil => simp at h
  | cons l ls ih =>
    cases ls with
    | nil => exact .inr ⟨l, List.mem_cons_self, by simpa using h⟩
    | cons m ls =>
      rw [List.intercalate_cons_cons, List.append_assoc, List.mem_append, List.mem_append] at h
      rcases h with h | h | h
      · exact .inr ⟨l, List.mem_cons_self, h⟩
      · exact .inl h
      · exact (ih h).imp_right fun ⟨k, hk, ha⟩ => ⟨k, List.mem_cons_of_mem l hk, ha⟩

/-- A list of addresses without zones is one line. -/
theorem newline_notMem_plain {is : List IPInterface} (h : ∀ i ∈ is, i.address.scopeId = none) :
    '\n' ∉ (", ".intercalate (is.map (·.text))).toList := by
  intro hc
  rw [String.toList_intercalate, List.map_map] at hc
  rcases mem_of_mem_intercalate hc with hc | ⟨l, hl, hc⟩
  · exact absurd hc (by decide)
  · obtain ⟨i, hi, rfl⟩ := List.mem_map.mp hl
    exact absurd (toNat_of_mem_text (h i hi) hc).1 (by decide)

/-- Without zones the entries read are the addresses written. -/
theorem lineAllowedIPs_plain {peer : PeerConfig} (hne : peer.addresses ≠ [])
    (h : ∀ i ∈ peer.addresses, i.address.scopeId = none) :
    lineAllowedIPs (allowedIPsLine peer) = [peer.addresses.map (·.text)] := by
  have hline : '\n' ∉ (allowedIPsLine peer).toList := by
    rw [allowedIPsLine, String.toList_append, List.mem_append]
    rintro (hc | hc)
    · exact absurd hc (by decide)
    · exact newline_notMem_plain h hc
  have htexts : peer.addresses.map (·.text) ≠ [] := by simpa using hne
  have hentries := entries_intercalate "AllowedIPs" htexts fun t ht c hc => by
      obtain ⟨i, hi, rfl⟩ := List.mem_map.mp ht
      exact isEntryChar_of_toNat (toNat_of_mem_text (h i hi) hc)
  rw [lineAllowedIPs, List.splitOn_eq_singleton hline, List.map_singleton]
  change List.filter _ [entries "AllowedIPs" ("AllowedIPs" ++ " = " ++ _).toList] = _
  rw [hentries]
  simp [hne]

/-! ## The routing of the rendered text -/

/-- The address belongs to an entry of an AllowedIPs line. -/
def EntryContains (e : String) (a : IPAddress) : Prop :=
  ∃ i, readCidr e = some i ∧ i.network.contains a = true

/-- The AllowedIPs of a server configuration: one list a peer, each entry one host of a gateway
network that is no gateway, and no address in two entries, hence none with two peers. -/
structure CryptokeyRouting (config : ProjectConfig) (text : String) : Prop where
  peers : (allowedIPs text).length = config.wireguard.peers.length
  hosts : ∀ e ∈ (allowedIPs text).flatten, ∃ i, readCidr e = some i ∧
    i.prefixlen = i.version.width ∧
    (∃ gateway ∈ config.wireguard.gatewayAddresses, gateway.network.contains i.address = true) ∧
    i.address ∉ config.wireguard.gatewayAddresses.map (·.ip)
  disjoint : (allowedIPs text).flatten.Pairwise fun e f =>
    ∀ a, ¬ (EntryContains e a ∧ EntryContains f a)
  attributed : (allowedIPs text).Pairwise fun es fs =>
    ∀ a, ¬ ((∃ e ∈ es, EntryContains e a) ∧ ∃ f ∈ fs, EntryContains f a)

/-- No address of a peer carries a zone. -/
def PeersWithoutZones (config : ProjectConfig) : Prop :=
  ∀ i ∈ config.peerAddresses, i.address.scopeId = none

instance {config : ProjectConfig} : Decidable (PeersWithoutZones config) :=
  inferInstanceAs (Decidable (∀ _ ∈ _, _))

/-- A key that is one line of text, as every accepted key is. -/
def OneLine (key : String) : Prop := '\n' ∉ key.toList

instance : Decidable (OneLine key) := inferInstanceAs (Decidable (_ ∉ _))

theorem oneLine_of_name (h : peerPattern name = true) : OneLine name := by
  unfold peerPattern headTail at h
  split at h
  · cases h
  · next c cs hname =>
    simp only [Bool.and_eq_true, List.all_eq_true] at h
    rw [OneLine, hname, List.mem_cons]
    rintro (hc | hc)
    · rw [← hc] at h
      exact absurd h.1.1 (by decide)
    · exact absurd (h.1.2 _ hc) (by decide)

theorem withoutScope_eq {a : IPAddress} (h : a.scopeId = none) : a.withoutScope = a := by
  cases a with
  | v4 ip => rfl
  | v6 ip scope =>
    obtain rfl : scope = none := h
    rfl

theorem mem_of_lookup {l : List (String × β)} (h : l.lookup a = some b) : (a, b) ∈ l := by
  obtain ⟨pre, post, rfl, -⟩ := List.lookup_eq_some_iff.mp h
  exact List.mem_append_right _ List.mem_cons_self

section
variable [UnicodeDb] {config : CheckedConfig} {serverPrivateKey text : String}
  {peerKeys : List (String × String × String)}

/-- What is read of the rendered text: the AllowedIPs lines of the peers. -/
theorem allowedIPs_rendered (hserver : OneLine serverPrivateKey)
    (hpeers : ∀ keys ∈ peerKeys, OneLine keys.2.1 ∧ OneLine keys.2.2)
    (h : renderServerConfig config.toProjectConfig serverPrivateKey peerKeys = .ok text) :
    allowedIPs text =
      config.wireguard.peers.flatMap fun peer => lineAllowedIPs (allowedIPsLine peer) := by
  obtain ⟨keys, hkeys, rfl⟩ := renderServerConfig_ok h
  have hinterface : lineAllowedIPs "[Interface]" = [] := by decide
  have hprivate : lineAllowedIPs ("PrivateKey = " ++ serverPrivateKey) = [] :=
    lineAllowedIPs_other (by decide) hserver
  have hport : lineAllowedIPs ("ListenPort = " ++ toString config.wireguard.listenPort) = [] :=
    lineAllowedIPs_other (by decide) (Int.not_mem_toString (by decide) (by decide))
  rw [allowedIPs_text (by simp), List.flatMap_append, List.flatMap_cons, List.flatMap_cons,
    List.flatMap_cons, hinterface, hprivate, hport, List.flatMap_assoc]
  refine List.flatMap_congr fun peer hpeer => ?_
  have hpair := hpeers _ (mem_of_lookup (hkeys peer hpeer))
  exact serverPeerLines_allowedIPs (oneLine_of_name (config.peer_checked hpeer).1) hpair.1 hpair.2

/-- Without zones the peers' addresses are read as they are. -/
theorem allowedIPs_plain (hzones : PeersWithoutZones config.toProjectConfig) :
    (config.wireguard.peers.flatMap fun peer => lineAllowedIPs (allowedIPsLine peer)) =
      config.wireguard.peers.map fun peer => peer.addresses.map (·.text) := by
  rw [List.map_eq_flatMap]
  refine List.flatMap_congr fun peer hpeer => ?_
  exact lineAllowedIPs_plain (config.peer_checked hpeer).2.1 fun i hi =>
    hzones i (List.mem_flatMap.mpr ⟨peer, hpeer, hi⟩)

theorem cryptokeyRouting_of_plain (hzones : PeersWithoutZones config.toProjectConfig)
    (htext : allowedIPs text =
      config.wireguard.peers.map fun peer => peer.addresses.map (·.text)) :
    CryptokeyRouting config.toProjectConfig text := by
  have hflatten : (allowedIPs text).flatten = config.peerAddresses.map (·.text) := by
    rw [htext, ProjectConfig.peerAddresses, List.map_flatMap]
    rfl
  have hread : ∀ i ∈ config.peerAddresses, readCidr i.text = some i := fun i hi =>
    readCidr_text (hzones i hi)
  obtain ⟨hall, hnodup⟩ := config.peerAddresses_checked
  have hdisjoint : (allowedIPs text).flatten.Pairwise fun e f =>
      ∀ a, ¬ (EntryContains e a ∧ EntryContains f a) := by
    rw [hflatten, List.pairwise_map]
    have hne : config.peerAddresses.Pairwise fun i j => i.ip ≠ j.ip := List.pairwise_map.mp hnodup
    refine hne.imp_of_mem fun {i j} hi hj hij a => ?_
    rintro ⟨⟨i', hi', hia⟩, j', hj', hja⟩
    obtain rfl := Option.some.inj ((hread i hi).symm.trans hi')
    obtain rfl := Option.some.inj ((hread j hj).symm.trans hj')
    exact hij ((ip_of_contains (hall i hi).1 hia).trans (ip_of_contains (hall j hj).1 hja).symm)
  refine ⟨by rw [htext, List.length_map], fun e he => ?_, hdisjoint, ?_⟩
  · rw [hflatten] at he
    obtain ⟨i, hi, rfl⟩ := List.mem_map.mp he
    obtain ⟨hwidth, hchecked⟩ := hall i hi
    have hip : i.ip = i.address := withoutScope_eq (hzones i hi)
    exact ⟨i, hread i hi, hwidth, hip ▸ hchecked.inside, hip ▸ hchecked.fresh⟩
  · refine (List.pairwise_flatten.mp hdisjoint).2.imp fun hpair a => ?_
    rintro ⟨⟨e, he, hea⟩, f, hf, hfa⟩
    exact hpair e he f hf a ⟨hea, hfa⟩

end

/-- The AllowedIPs of the rendered server configuration attribute every source address to at most
one peer exactly when no peer address carries a zone. -/
theorem cryptokeyRouting_iff [UnicodeDb] (config : CheckedConfig) (serverPrivateKey : String)
    (peerKeys : List (String × String × String)) (text : String)
    (hserver : OneLine serverPrivateKey)
    (hpeers : ∀ keys ∈ peerKeys, OneLine keys.2.1 ∧ OneLine keys.2.2)
    (h : renderServerConfig config.toProjectConfig serverPrivateKey peerKeys = .ok text) :
    CryptokeyRouting config.toProjectConfig text ↔ PeersWithoutZones config.toProjectConfig := by
  have hread := allowedIPs_rendered hserver hpeers h
  constructor
  · intro hrouting i hi
    by_contra hzone
    obtain ⟨peer, hpeer, hi⟩ := List.mem_flatMap.mp hi
    obtain ⟨es, hes, e, he, hpercent⟩ := exists_percent ⟨i, hi, hzone⟩
    have hentry : e ∈ (allowedIPs text).flatten := by
      rw [hread]
      exact List.mem_flatten.mpr ⟨es, List.mem_flatMap.mpr ⟨peer, hpeer, hes⟩, he⟩
    obtain ⟨j, hj, -⟩ := hrouting.hosts e hentry
    exact percent_notMem_of_readCidr hj hpercent
  · intro hzones
    exact cryptokeyRouting_of_plain hzones (hread.trans (allowedIPs_plain hzones))

/-- The keys of the example's peers. -/
def examplePeerKeys : List (String × String × String) :=
  [("phone", "cGhvbmU=", "cHNrMQ=="), ("tablet", "dGFibGV0", "cHNrMg==")]

theorem cryptokeyRouting_example :
    ∃ text, renderServerConfig exampleProject "c2VydmVy" examplePeerKeys = .ok text ∧
      CryptokeyRouting exampleProject text :=
  let := asciiDb
  ⟨_, rfl, (cryptokeyRouting_iff exampleConfig "c2VydmVy" examplePeerKeys _ (by decide) (by decide)
    rfl).mpr (by decide +kernel)⟩

theorem tablet_prefixlen :
    128 ≤ (IPAddress.v6 (0xfd770000000000000000000000000003 : BitVec 128) none).version.width := by
  decide

/-- Two peers, the first with an address whose zone holds the text of the second's. -/
def zonedPeersProject : ProjectConfig :=
  { exampleProject with
    wireguard.peers := [
      { name := "phone"
        addresses := [⟨.v6 (0xfd770000000000000000000000000002 : BitVec 128)
          (some ⟨"a, fd77::3", by decide, by decide⟩), 128, by decide⟩] },
      { name := "tablet"
        addresses := [⟨.v6 (0xfd770000000000000000000000000003 : BitVec 128) none, 128,
          tablet_prefixlen⟩] }] }

def zonedPeersConfig : @CheckedConfig asciiDb :=
  @CheckedConfig.mk asciiDb zonedPeersProject (by decide +kernel)

/-- Both peers are accepted, and both have `fd77::3/128` among their AllowedIPs. -/
theorem zonedPeers_overlap : @ProjectConfig.check asciiDb zonedPeersProject = .ok () ∧
    ∃ text, renderServerConfig zonedPeersProject "c2VydmVy" examplePeerKeys = .ok text ∧
      allowedIPs text = [["fd77::2%a", "fd77::3/128"], ["fd77::3/128"]] ∧
      ¬ CryptokeyRouting zonedPeersProject text := by
  obtain ⟨text, htext, hread⟩ :
      ∃ text, renderServerConfig zonedPeersProject "c2VydmVy" examplePeerKeys = .ok text ∧
        allowedIPs text = [["fd77::2%a", "fd77::3/128"], ["fd77::3/128"]] := by
    refine ⟨_, rfl, (@allowedIPs_rendered asciiDb zonedPeersConfig "c2VydmVy" _ examplePeerKeys
      (by decide) (by decide) rfl).trans ?_⟩
    decide +kernel
  refine ⟨@zonedPeersConfig.accepted, text, htext, hread, fun h => ?_⟩
  have hsame := h.disjoint
  rw [hread] at hsame
  have hcontains : EntryContains "fd77::3/128"
      (.v6 (0xfd770000000000000000000000000003 : BitVec 128) none) :=
    ⟨⟨.v6 (0xfd770000000000000000000000000003 : BitVec 128) none, 128, by decide⟩,
      by decide +kernel, by decide +kernel⟩
  simp only [List.flatten_cons, List.flatten_nil, List.append_nil, List.cons_append,
    List.nil_append, List.pairwise_cons] at hsame
  exact hsame.2.1 _ List.mem_cons_self _ ⟨hcontains, hcontains⟩

end ShuttleGate
