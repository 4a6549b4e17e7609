import ShuttleGate.Render.Cryptokey
import ShuttleGate.Keys.KeyText
import ShuttleGate.Json.Text
import ShuttleGate.Crypto.Sha256

/-! # The fingerprint of a phone configuration

Two encoders of the same settings: the text a phone imports and the canonical JSON that is hashed.
Both determine the settings and the keys, the text although a zone may hold anything but `%` and
`/`, so the two change together. -/

namespace ShuttleGate

open Net Crypto

/-- What a phone configuration shows beside the keys. -/
structure PhoneSettings where
  addresses : List String
  allowedRoutes : List String
  dns : Option String
  endpoint : String
  keepalive : Int

def phoneSettings (config : ProjectConfig) (peer : PeerConfig) : PhoneSettings where
  addresses := peer.addresses.map (·.text)
  allowedRoutes := peerAllowedRoutes config
  dns := if config.dns.enabled then
      some (match config.dns.upstream with | none => "None" | some upstream => upstream.text)
    else none
  endpoint := endpoint config
  keepalive := peer.persistentKeepaliveSeconds

/-- The hashed values. -/
def fingerprintValue (settings : PhoneSettings)
    (serverPublicKey peerPublicKey presharedKeyDigest : String) : Json :=
  .obj [("addresses", .arr (settings.addresses.map .str)),
    ("allowed_routes", .arr (settings.allowedRoutes.map .str)),
    ("dns", match settings.dns with | none => .null | some dns => .str dns),
    ("endpoint", .str settings.endpoint),
    ("keepalive", .int settings.keepalive),
    ("peer_public_key", .str peerPublicKey),
    ("preshared_key_digest", .str presharedKeyDigest),
    ("server_public_key", .str serverPublicKey)]

/-- The text that is hashed. -/
def fingerprintText (config : ProjectConfig) (peer : PeerConfig)
    (serverPublicKey peerPublicKey presharedKey : String) : String :=
  Json.dumps .compact (fingerprintValue (phoneSettings config peer) serverPublicKey peerPublicKey
    (Sha256.hexdigest (Sha256.ascii presharedKey)))

/-- Hash all values whose change requires a phone to import its configuration again. A preshared
key that is not ASCII raises. -/
def phoneFingerprint (config : ProjectConfig) (peer : PeerConfig)
    (serverPublicKey peerPublicKey presharedKey : String) : Except Exn String := do
  raiseIf (¬ presharedKey.toList.all fun c => c.toNat < 128) (.error "UnicodeEncodeError")
  return Sha256.hexdigest (Sha256.ascii
    (fingerprintText config peer serverPublicKey peerPublicKey presharedKey))

/-! ## The canonical JSON determines its values -/

theorem sortKeys_fingerprintValue :
    (fingerprintValue settings server pub digest).sortKeys =
      fingerprintValue settings server pub digest := by
  have hstr (l : List String) : Json.sortItems (l.map .str) = l.map .str := by
    induction l with
    | nil => rfl
    | cons s l ih => rw [List.map_cons, Json.sortItems, ih]; rfl
  have hdns : (match settings.dns with | none => Json.null | some dns => .str dns).sortKeys =
      match settings.dns with | none => Json.null | some dns => .str dns := by
    cases settings.dns <;> rfl
  unfold fingerprintValue
  rw [Json.sortKeys, Json.sortFields_eq]
  simp only [List.map_cons, List.map_nil, Json.sortKeys, hstr, hdns]
  refine congrArg Json.obj (List.Pairwise.insertionSort_eq ?_)
  have hkeys : ["addresses", "allowed_routes", "dns", "endpoint", "keepalive", "peer_public_key",
      "preshared_key_digest", "server_public_key"].Pairwise fun a b : String => a ≤ b := by
    decide
  exact List.pairwise_map.mp (show (List.map Prod.fst _).Pairwise _ from hkeys)

theorem fingerprintValue_wellFormed : (fingerprintValue settings server pub digest).WellFormed := by
  have hstr (l : List String) : Json.ItemsWellFormed (l.map .str) :=
    Json.itemsWellFormed_iff.mpr fun item hitem => by
      obtain ⟨s, -, rfl⟩ := List.mem_map.mp hitem
      trivial
  refine ⟨by simp, hstr _, hstr _, ?_, trivial, trivial, trivial, trivial, trivial, trivial⟩
  cases settings.dns <;> trivial

theorem map_str_injective : Function.Injective (List.map Json.str) :=
  List.map_injective_iff.mpr fun _ _ h => Json.str.inj h

theorem fingerprintValue_inj
    (h : fingerprintValue settings server pub digest =
      fingerprintValue settings' server' pub' digest') :
    settings = settings' ∧ server = server' ∧ pub = pub' ∧ digest = digest' := by
  unfold fingerprintValue at h
  simp only [Json.obj.injEq, List.cons.injEq, Prod.mk.injEq, true_and, Json.arr.injEq,
    Json.str.injEq, Json.int.injEq, and_true] at h
  obtain ⟨haddresses, hroutes, hdns, hendpoint, hkeepalive, hpub, hdigest, hserver⟩ := h
  obtain ⟨addresses, routes, dns, endpoint, keepalive⟩ := settings
  obtain ⟨addresses', routes', dns', endpoint', keepalive'⟩ := settings'
  obtain rfl := map_str_injective haddresses
  obtain rfl := map_str_injective hroutes
  obtain rfl : dns = dns' := by
    cases dns <;> cases dns' <;> simp_all
  exact ⟨by rw [PhoneSettings.mk.injEq]; exact ⟨rfl, rfl, rfl, hendpoint, hkeepalive⟩,
    hserver, hpub, hdigest⟩

/-- Equal texts have equal values. -/
theorem fingerprintText_inj
    (h : Json.dumps .compact (fingerprintValue settings server pub digest) =
      Json.dumps .compact (fingerprintValue settings' server' pub' digest')) :
    settings = settings' ∧ server = server' ∧ pub = pub' ∧ digest = digest' := by
  have hload {settings : PhoneSettings} {server pub digest : String} :
      Json.loads (Json.dumps .compact (fingerprintValue settings server pub digest) ++ "") =
        some (fingerprintValue settings server pub digest).sortKeys :=
    Json.loads_dumps fingerprintValue_wellFormed .compact (by simp)
  have hvalue := (congrArg (fun text => Json.loads (text ++ "")) h)
  rw [hload, hload, sortKeys_fingerprintValue, sortKeys_fingerprintValue] at hvalue
  exact fingerprintValue_inj (Option.some.inj hvalue)

/-- ASCII texts are their bytes. -/
theorem ascii_inj {s t : String} (hs : ∀ c ∈ s.toList, c.toNat < 128)
    (ht : ∀ c ∈ t.toList, c.toNat < 128) (h : Sha256.ascii s = Sha256.ascii t) : s = t := by
  have hback {s : String} (hs : ∀ c ∈ s.toList, c.toNat < 128) :
      (Sha256.ascii s).map (fun b => Char.ofNat b.toNat) = s.toList := by
    rw [Sha256.ascii, List.map_map]
    refine (List.map_congr_left fun c hc => ?_).trans s.toList.map_id
    have hlt := hs c hc
    simp only [Function.comp_apply, BitVec.toNat_ofNat, id]
    rw [Nat.mod_eq_of_lt (by omega)]
    exact Char.ofNat_toNat c
  refine String.toList_inj.mp ?_
  rw [← hback hs, ← hback ht, h]

theorem ascii_dumps {v : Json} (h : v.WellFormed) (st : Json.Style) :
    ∀ c ∈ (Json.dumps st v).toList, c.toNat < 128 := by
  intro c hc
  rcases Json.textChar_dumps h st c hc with rfl | hc
  · decide
  · omega

/-! ## The phone's text determines its values -/

/-- The first separator splits a list one way. -/
theorem append_first_inj {x y r s : List α} (hx : a ∉ x) (hy : a ∉ y)
    (h : x ++ a :: r = y ++ a :: s) : x = y ∧ r = s := by
  induction x generalizing y with
  | nil =>
    cases y with
    | nil => exact ⟨rfl, (List.cons.inj h).2⟩
    | cons b y => exact absurd ((List.cons.inj h).1 ▸ List.mem_cons_self) hy
  | cons b x ih =>
    cases y with
    | nil => exact absurd ((List.cons.inj h).1 ▸ List.mem_cons_self) hx
    | cons c y =>
      obtain ⟨hhead, htail⟩ := List.cons.inj h
      obtain ⟨rfl, rfl⟩ :=
        ih (List.not_mem_of_not_mem_cons hx) (List.not_mem_of_not_mem_cons hy) htail
      exact ⟨hhead ▸ rfl, rfl⟩

/-- A run of digits before another character is determined. -/
theorem digits_inj {x y r s : List Char} (hx : ∀ c ∈ x, c.isDigit = true)
    (hy : ∀ c ∈ y, c.isDigit = true) (hr : ∀ c ∈ r.head?, c.isDigit = false)
    (hs : ∀ c ∈ s.head?, c.isDigit = false) (h : x ++ r = y ++ s) : x = y ∧ r = s := by
  have hleft := List.takeWhile_append_stop hx hr
  have hright := List.takeWhile_append_stop hy hs
  rw [h] at hleft
  exact ⟨hleft.1.symm.trans hright.1, hleft.2.symm.trans hright.2⟩

theorem slash_notMem_chars (a : IPAddress) : '/' ∉ a.chars := by
  cases a with
  | v4 ip => exact IPAddress.slash_notMem (a := .v4 ip) rfl
  | v6 ip scope =>
    cases scope with
    | none => exact IPAddress.slash_notMem (a := .v6 ip none) rfl
    | some scope =>
      intro h
      rcases List.mem_append.mp h with h | h
      · exact IPAddress.slash_notMem (a := .v6 ip none) rfl h
      · rcases List.mem_cons.mp h with h | h
        · cases h
        · exact (scope.plain _ h).2 rfl

/-- What stands after an address of a list that ends with a line break. -/
def listEnd : List IPInterface → List Char → List Char
  | [], r => '\n' :: r
  | i :: is, r => ',' :: ' ' :: (i.text.toList ++ listEnd is r)

theorem intercalate_listEnd (i : IPInterface) (is : List IPInterface) (r : List Char) :
    (", ".intercalate ((i :: is).map (·.text))).toList ++ '\n' :: r = i.text.toList ++ listEnd is r := by
  rw [String.toList_intercalate, List.map_map]
  induction is generalizing i with
  | nil => simp [listEnd]
  | cons j is ih =>
    rw [List.map_cons, List.map_cons, List.intercalate_cons_cons, List.append_assoc,
      List.append_assoc]
    exact congrArg (fun l => i.text.toList ++ (", ".toList ++ l)) (ih j)

/-- An address with its prefix length is determined, whatever its zone contains. -/
theorem text_listEnd_inj {i j : IPInterface} {is js : List IPInterface} {r s : List Char}
    (h : i.text.toList ++ listEnd is r = j.text.toList ++ listEnd js s) :
    i.text = j.text ∧ listEnd is r = listEnd js s := by
  have hhead (is : List IPInterface) (r : List Char) :
      ∀ c ∈ (listEnd is r).head?, c.isDigit = false := by
    cases is <;> simp [listEnd]
  have hsplit (i : IPInterface) : i.text.toList =
      i.address.chars ++ '/' :: Nat.toDigits 10 i.prefixlen := toList_prefixText _ _
  rw [hsplit i, hsplit j, List.append_assoc, List.append_assoc, List.cons_append,
    List.cons_append] at h
  obtain ⟨haddress, h⟩ := append_first_inj (slash_notMem_chars _) (slash_notMem_chars _) h
  obtain ⟨hlength, h⟩ := digits_inj (Nat.all_isDigit_toDigits _) (Nat.all_isDigit_toDigits _)
    (hhead is r) (hhead js s) h
  exact ⟨String.toList_inj.mp (by rw [hsplit i, hsplit j, haddress, hlength]), h⟩

theorem listEnd_inj {is js : List IPInterface} {r s : List Char} (h : listEnd is r = listEnd js s) :
    is.map (·.text) = js.map (·.text) ∧ r = s := by
  induction is generalizing js with
  | nil =>
    cases js with
    | nil => exact ⟨rfl, (List.cons.inj h).2⟩
    | cons j js => cases (List.cons.inj h).1
  | cons i is ih =>
    cases js with
    | nil => cases (List.cons.inj h).1
    | cons j js =>
      have htail := (List.cons.inj (List.cons.inj h).2).2
      obtain ⟨htext, hend⟩ := text_listEnd_inj htail
      obtain ⟨hrest, hr⟩ := ih hend
      exact ⟨by rw [List.map_cons, List.map_cons, htext, hrest], hr⟩

/-- A list of addresses is determined by a text it begins, up to the line break after it. -/
theorem addresses_inj {is js : List IPInterface} {r s : List Char} (hi : is ≠ []) (hj : js ≠ [])
    (h : (", ".intercalate (is.map (·.text))).toList ++ '\n' :: r =
      (", ".intercalate (js.map (·.text))).toList ++ '\n' :: s) :
    is.map (·.text) = js.map (·.text) ∧ r = s := by
  obtain ⟨i, is, rfl⟩ := List.exists_cons_of_ne_nil hi
  obtain ⟨j, js, rfl⟩ := List.exists_cons_of_ne_nil hj
  rw [intercalate_listEnd, intercalate_listEnd] at h
  obtain ⟨htext, hend⟩ := text_listEnd_inj h
  obtain ⟨hrest, hr⟩ := listEnd_inj hend
  exact ⟨by rw [List.map_cons, List.map_cons, htext, hrest], hr⟩

/-! ### The DNS line

A zone may contain line breaks and thus a copy of the lines that follow. It cannot contain a
second `%`, and a blank line of a rendered text that is not the one before `[Peer]` has a `%`
before it. -/

/-- No blank line before the first `%`. -/
def noBlankLine : List Char → Bool
  | [] => true
  | c :: l => c == '%' || ((c != '\n' || l.head? != some '\n') && noBlankLine l)

theorem percent_of_blankLine {w l : List Char}
    (h : noBlankLine (w ++ '\n' :: '\n' :: l) = true) : '%' ∈ w := by
  induction w with
  | nil => simp [noBlankLine] at h
  | cons c w ih =>
    rw [List.cons_append, noBlankLine, Bool.or_eq_true, Bool.and_eq_true] at h
    rcases h with h | ⟨-, h⟩
    · exact (beq_iff_eq.mp h) ▸ List.mem_cons_self
    · exact List.mem_cons_of_mem c (ih h)

theorem noBlankLine_line {x l : List Char} (hx : '\n' ∉ x) (h : noBlankLine l = true) :
    noBlankLine (x ++ l) = true := by
  induction x with
  | nil => exact h
  | cons c x ih =>
    have hc : c ≠ '\n' := fun hc => hx (hc ▸ List.mem_cons_self)
    simp [noBlankLine, hc, ih (List.not_mem_of_not_mem_cons hx)]

theorem noBlankLine_break {c : Char} {l : List Char} (hc : c ≠ '\n')
    (h : noBlankLine (c :: l) = true) : noBlankLine ('\n' :: c :: l) = true := by
  rw [noBlankLine, h]
  simp [hc]

theorem noBlankLine_percent {x : List Char} (h : '%' ∈ x.takeWhile (· ≠ '\n')) (l : List Char) :
    noBlankLine (x ++ l) = true := by
  induction x with
  | nil => cases h
  | cons c x ih =>
    by_cases hc : c = '\n'
    · simp [hc] at h
    · rw [List.takeWhile_cons_of_pos (by simpa using hc)] at h
      rw [List.cons_append, noBlankLine]
      rcases List.mem_cons.mp h with h | h
      · simp [← h]
      · simp [hc, ih h]

/-- After a line break inside an address there is no `%`. -/
theorem percent_notMem_of_break {a : IPAddress} (h : a.chars = u ++ '\n' :: w) : '%' ∉ w := by
  have hnumeric {a : IPAddress} (hzone : a.scopeId = none) : '\n' ∉ a.chars := fun hc =>
    absurd (IPAddress.toNat_of_mem hzone hc).1 (by decide)
  have hmem : '\n' ∈ a.chars := h ▸ List.mem_append_right _ List.mem_cons_self
  cases a with
  | v4 ip => exact absurd hmem (hnumeric (a := .v4 ip) rfl)
  | v6 ip scope =>
    cases scope with
    | none => exact absurd hmem (hnumeric (a := .v6 ip none) rfl)
    | some scope =>
      intro hpercent
      have hzone : '%' ∉ scope.text.toList := fun hc => (scope.plain _ hc).1 rfl
      have hplain : '\n' ∉ ipv6Chars ip := hnumeric (a := .v6 ip none) rfl
      rw [IPAddress.chars] at h
      rcases List.append_eq_append_iff.mp h with ⟨t, hu, ht⟩ | ⟨t, hu, ht⟩
      · cases t with
        | nil => cases (List.cons.inj ht).1
        | cons c t =>
          obtain ⟨-, ht⟩ := List.cons.inj ht
          rw [ht] at hzone
          exact hzone (List.mem_append_right _ (List.mem_cons_of_mem _ hpercent))
      · cases t with
        | nil => cases (List.cons.inj ht).1
        | cons c t =>
          obtain ⟨rfl, -⟩ := List.cons.inj ht
          rw [hu] at hplain
          exact hplain (List.mem_append_right _ List.mem_cons_self)

/-- The upstream is determined by a text it begins, up to the first blank line. -/
theorem upstream_inj {a b : IPAddress} {r s : List Char} (hr : noBlankLine ('\n' :: r) = true)
    (hs : noBlankLine ('\n' :: s) = true)
    (h : a.text.toList ++ '\n' :: '\n' :: r = b.text.toList ++ '\n' :: '\n' :: s) :
    a.text = b.text ∧ r = s := by
  -- a longer address would hold the blank line, and no `%` after it
  have hlonger {a b : IPAddress} {r s w : List Char} (hr : noBlankLine ('\n' :: r) = true)
      (hb : b.chars = a.chars ++ w) (hrest : '\n' :: '\n' :: r = w ++ '\n' :: '\n' :: s) : w = [] := by
    cases w with
    | nil => rfl
    | cons c w =>
      obtain ⟨rfl, htail⟩ := List.cons.inj hrest
      have htail : '\n' :: r = w ++ '\n' :: '\n' :: s := htail
      rw [htail] at hr
      exact absurd (percent_of_blankLine hr) (percent_notMem_of_break hb)
  rw [toList_text, toList_text] at h
  have hempty : ∃ w, w = ([] : List Char) ∧ ((b.chars = a.chars ++ w ∧
      '\n' :: '\n' :: r = w ++ '\n' :: '\n' :: s) ∨ (a.chars = b.chars ++ w ∧
      '\n' :: '\n' :: s = w ++ '\n' :: '\n' :: r)) := by
    rcases List.append_eq_append_iff.mp h with ⟨w, hb, hw⟩ | ⟨w, ha, hw⟩
    · exact ⟨w, hlonger hr hb hw, .inl ⟨hb, hw⟩⟩
    · exact ⟨w, hlonger hs ha hw, .inr ⟨ha, hw⟩⟩
  obtain ⟨w, rfl, ⟨hchars, hrest⟩ | ⟨hchars, hrest⟩⟩ := hempty
  · rw [List.append_nil] at hchars
    exact ⟨congrArg String.ofList hchars.symm, (List.cons.inj (List.cons.inj hrest).2).2⟩
  · rw [List.append_nil] at hchars
    exact ⟨congrArg String.ofList hchars, (List.cons.inj (List.cons.inj hrest).2).2.symm⟩

/-! ### The endpoint -/

/-- A host name is one line. -/
theorem oneLine_of_labels {host : String}
    (h : (((rstripDots host).toList.splitOn '.').map String.ofList).all hostLabelPattern = true) :
    OneLine host := by
  have hlabel : '\n' ∉ (rstripDots host).toList := by
    intro hc
    have hjoin : ['.'].intercalate ((rstripDots host).toList.splitOn '.') = (rstripDots host).toList :=
      List.intercalate_splitOn '.'
    rw [← hjoin] at hc
    rcases mem_intercalate hc with hc | ⟨l, hl, hc⟩
    · cases hc
    · have hpattern := List.all_eq_true.mp h _ (List.mem_map_of_mem hl)
      simp only [hostLabelPattern, allOf, Bool.and_eq_true, String.toList_ofList] at hpattern
      have hall := List.all_eq_true.mp hpattern.1.1.1.1 _ hc
      simp at hall
      exact absurd hall (by decide)
  intro hc
  have hdots : host.toList = (rstripDots host).toList ++
      (host.toList.reverse.takeWhile (· == '.')).reverse := by
    rw [rstripDots, String.toList_ofList, ← List.reverse_append, List.takeWhile_append_dropWhile,
      List.reverse_reverse]
  rw [hdots] at hc
  rcases List.mem_append.mp hc with hc | hc
  · exact hlabel hc
  · have := List.mem_takeWhile_imp (List.mem_reverse.mp hc)
    exact absurd this (by decide)

theorem oneLine_of_scope {a : IPAddress} {m p u : String}
    (h : WireGuardConfig.checkScope a m p u = .ok ()) : OneLine a.text := by
  rw [OneLine, toList_text]
  cases a with
  | v4 ip => exact fun hc => absurd (IPAddress.toNat_of_mem (a := .v4 ip) rfl hc).1 (by decide)
  | v6 ip scope =>
    have hplain : '\n' ∉ ipv6Chars ip := fun hc =>
      absurd (IPAddress.toNat_of_mem (a := .v6 ip none) rfl hc).1 (by decide)
    cases scope with
    | none => exact hplain
    | some scope =>
      simp only [WireGuardConfig.checkScope, raiseIf_bind_eq_ok, raiseIf_eq_ok] at h
      have hscope : '\n' ∉ scope.text.toList := fun hc => by
        have hpattern := h.2.2
        rw [Bool.not_eq_true, Bool.not_eq_false, interfacePattern, allOf, Bool.and_eq_true,
          Bool.and_eq_true] at hpattern
        exact absurd (List.all_eq_true.mp hpattern.1.1 _ hc) (by decide)
      intro hc
      rcases List.mem_append.mp hc with hc | hc
      · exact hplain hc
      · rcases List.mem_cons.mp hc with hc | hc
        · cases hc
        · exact hscope hc

/-- The endpoint is one line. -/
theorem oneLine_endpoint [UnicodeDb] (config : CheckedConfig) :
    OneLine (endpoint config.toProjectConfig) := by
  have hall := config.checks.1
  simp only [WireGuardConfig.check, seq_eq_ok] at hall
  have hhost := hall.2.1
  simp only [WireGuardConfig.checkEndpointHost, raiseIf_bind_eq_ok, not_or, not_not] at hhost
  obtain ⟨⟨-, hstrip, -⟩, hhost⟩ := hhost
  rw [hstrip] at hhost
  have hrendered : OneLine (renderedHost config.wireguard.endpointHost) := by
    unfold renderedHost
    cases haddress : IPAddress.ofText config.wireguard.endpointHost with
    | none =>
      rw [haddress] at hhost
      simp only [raiseIf_eq_ok, Bool.not_eq_true, Bool.not_eq_false] at hhost
      exact oneLine_of_labels hhost
    | some address =>
      simp only [haddress, raiseIf_bind_eq_ok] at hhost
      have htext := oneLine_of_scope hhost.2
      cases address with
      | v4 ip => exact htext
      | v6 ip scope =>
        change '\n' ∉ ("[" ++ (IPAddress.v6 ip scope).text ++ "]").toList
        simpa [OneLine] using htext
  change '\n' ∉ (renderedHost config.wireguard.endpointHost ++ ":" ++
    toString config.wireguard.listenPort).toList
  have hport : '\n' ∉ (toString config.wireguard.listenPort).toList :=
    Int.not_mem_toString (by decide) (by decide)
  simpa [OneLine] using ⟨hrendered, hport⟩

/-! ### The whole text -/

/-- The text from the blank line before `[Peer]`. -/
def peerSection (serverPublicKey presharedKey endpoint routes keepalive : List Char) : List Char :=
  "\n[Peer]\nPublicKey = ".toList ++ (serverPublicKey ++ '\n' :: ("PresharedKey = ".toList ++
    (presharedKey ++ '\n' :: ("Endpoint = ".toList ++ (endpoint ++ '\n' ::
      ("AllowedIPs = ".toList ++ (routes ++ '\n' ::
        ("PersistentKeepalive = ".toList ++ (keepalive ++ ['\n'])))))))))

/-- The DNS line, where there is one. -/
def dnsChars (config : ProjectConfig) : List Char :=
  match config.dns.enabled, config.dns.upstream with
  | true, some upstream => "DNS = ".toList ++ (upstream.text.toList ++ ['\n'])
  | _, _ => []

theorem toList_renderPhoneConfig (config : ProjectConfig) (peer : PeerConfig)
    (serverPublicKey peerPrivateKey presharedKey : String) :
    (renderPhoneConfig config peer serverPublicKey peerPrivateKey presharedKey).toList =
      "[Interface]\nPrivateKey = ".toList ++ (peerPrivateKey.toList ++ '\n' ::
        ("Address = ".toList ++ ((", ".intercalate (peer.addresses.map (·.text))).toList ++ '\n' ::
          (dnsChars config ++ peerSection serverPublicKey.toList presharedKey.toList
            (endpoint config).toList (", ".intercalate (peerAllowedRoutes config)).toList
            (toString peer.persistentKeepaliveSeconds).toList)))) := by
  have hstring (s : String) : toString s = s := rfl
  unfold renderPhoneConfig phoneLines dnsChars peerSection
  cases config.dns.enabled <;> cases config.dns.upstream <;>
    simp [String.toList_intercalate, hstring]

/-- Before the first `%` the peer section has one blank line, the first. -/
theorem noBlankLine_peerSection (routes : List IPInterface) (keepalive : Int)
    {serverPublicKey presharedKey endpoint : String} (hserver : OneLine serverPublicKey)
    (hpreshared : OneLine presharedKey) (hendpoint : OneLine endpoint) :
    noBlankLine (peerSection serverPublicKey.toList presharedKey.toList endpoint.toList
      (", ".intercalate (routes.map (·.text))).toList (toString keepalive).toList) = true := by
  have hline (head : String) (hne : head.toList.head?.any (· ≠ '\n') = true)
      (hhead : '\n' ∉ head.toList) {value : List Char} (hvalue : '\n' ∉ value) {l : List Char}
      (hl : noBlankLine l = true) :
      noBlankLine ('\n' :: (head.toList ++ (value ++ l))) = true := by
    obtain ⟨c, cs, hcs⟩ : ∃ c cs, head.toList = c :: cs := by
      cases h : head.toList with
      | nil => rw [h] at hne; cases hne
      | cons c cs => exact ⟨c, cs, rfl⟩
    rw [hcs] at hne
    have hrest := noBlankLine_line hhead (noBlankLine_line hvalue hl)
    rw [hcs] at hrest ⊢
    exact noBlankLine_break (by simpa using hne) hrest
  have hkeepalive : '\n' ∉ (toString keepalive).toList :=
    Int.not_mem_toString (by decide) (by decide)
  have hend : noBlankLine ('\n' :: ("PersistentKeepalive = ".toList ++
      ((toString keepalive).toList ++ ['\n']))) = true :=
    hline _ (by decide) (by decide) hkeepalive rfl
  have hroutes : noBlankLine ('\n' :: ("AllowedIPs = ".toList ++
      ((", ".intercalate (routes.map (·.text))).toList ++ '\n' :: ("PersistentKeepalive = ".toList ++
        ((toString keepalive).toList ++ ['\n']))))) = true := by
    by_cases hzones : ∀ i ∈ routes, i.address.scopeId = none
    · exact hline _ (by decide) (by decide) (newline_notMem_plain hzones) hend
    · have hzone : ∃ i ∈ routes, i.address.scopeId ≠ none := by simpa using hzones
      have hpercent := noBlankLine_percent (percent_in_first_line hzone)
      exact noBlankLine_break (by decide) (noBlankLine_line (x := "AllowedIPs = ".toList) (by decide)
        (hpercent _))
  refine hline "[Peer]" (by decide) (by decide) (List.not_mem_nil : '\n' ∉ []) ?_
  exact hline "PublicKey = " (by decide) (by decide) hserver
    (hline _ (by decide) (by decide) hpreshared (hline _ (by decide) (by decide) hendpoint hroutes))

theorem effectiveRoutes_texts (config : ProjectConfig) :
    peerAllowedRoutes config = (config.effectiveRoutes.map (·.interface)).map (·.text) := by
  rw [List.map_map]
  rfl

/-- The peer section determines what it shows. -/
theorem peerSection_inj {server server' preshared preshared' e e' : String}
    {routes routes' : List IPInterface} {keepalive keepalive' : Int}
    (hserver : OneLine server ∧ OneLine server') (hpreshared : OneLine preshared ∧ OneLine preshared')
    (he : OneLine e ∧ OneLine e') (hroutes : routes ≠ [] ∧ routes' ≠ [])
    (h : peerSection server.toList preshared.toList e.toList
        (", ".intercalate (routes.map (·.text))).toList (toString keepalive).toList =
      peerSection server'.toList preshared'.toList e'.toList
        (", ".intercalate (routes'.map (·.text))).toList (toString keepalive').toList) :
    server = server' ∧ preshared = preshared' ∧ e = e' ∧
      routes.map (·.text) = routes'.map (·.text) ∧ keepalive = keepalive' := by
  unfold peerSection at h
  obtain ⟨hs, h⟩ := append_first_inj hserver.1 hserver.2 (List.append_cancel_left h)
  obtain ⟨hp, h⟩ := append_first_inj hpreshared.1 hpreshared.2 (List.append_cancel_left h)
  obtain ⟨hend, h⟩ := append_first_inj he.1 he.2 (List.append_cancel_left h)
  obtain ⟨hr, h⟩ := addresses_inj hroutes.1 hroutes.2 (List.append_cancel_left h)
  have hk := List.append_cancel_right (List.append_cancel_left h)
  exact ⟨String.toList_inj.mp hs, String.toList_inj.mp hp, String.toList_inj.mp hend, hr,
    Int.toString_inj.mp (String.toList_inj.mp hk)⟩

/-- The DNS line of an accepted configuration shows its upstream. -/
theorem dnsChars_cases {c : ProjectConfig} (hc : c.dns.enabled = true ↔ c.dns.upstream ≠ none)
    (p : PeerConfig) : (dnsChars c = [] ∧ (phoneSettings c p).dns = none) ∨
      ∃ upstream : IPAddress, dnsChars c = "DNS = ".toList ++ (upstream.text.toList ++ ['\n']) ∧
        (phoneSettings c p).dns = some upstream.text := by
  cases henabled : c.dns.enabled with
  | false => exact .inl ⟨by simp [dnsChars, henabled], by simp [phoneSettings, henabled]⟩
  | true =>
    obtain ⟨upstream, hupstream⟩ := Option.ne_none_iff_exists'.mp (hc.mp henabled)
    exact .inr ⟨upstream, by simp [dnsChars, henabled, hupstream],
      by simp [phoneSettings, henabled, hupstream]⟩

/-- The DNS setting is determined by a text that begins with its line and goes on with a peer
section. -/
theorem dns_inj {c₁ c₂ : ProjectConfig} (p₁ p₂ : PeerConfig) {r s : List Char}
    (h₁ : c₁.dns.enabled = true ↔ c₁.dns.upstream ≠ none)
    (h₂ : c₂.dns.enabled = true ↔ c₂.dns.upstream ≠ none) (hr : noBlankLine ('\n' :: r) = true)
    (hs : noBlankLine ('\n' :: s) = true)
    (h : dnsChars c₁ ++ '\n' :: r = dnsChars c₂ ++ '\n' :: s) :
    (phoneSettings c₁ p₁).dns = (phoneSettings c₂ p₂).dns ∧ '\n' :: r = '\n' :: s := by
  rcases dnsChars_cases h₁ p₁ with ⟨hd₁, hn₁⟩ | ⟨u₁, hd₁, hn₁⟩ <;>
    rcases dnsChars_cases h₂ p₂ with ⟨hd₂, hn₂⟩ | ⟨u₂, hd₂, hn₂⟩
  · rw [hd₁, hd₂] at h
    exact ⟨hn₁.trans hn₂.symm, h⟩
  · rw [hd₁, hd₂] at h
    cases (List.cons.inj h).1
  · rw [hd₁, hd₂] at h
    cases (List.cons.inj h).1
  · rw [hd₁, hd₂, List.append_assoc, List.append_assoc, List.append_assoc, List.append_assoc] at h
    obtain ⟨htext, hrest⟩ := upstream_inj hr hs (List.append_cancel_left h)
    exact ⟨hn₁.trans ((congrArg some htext).trans hn₂.symm), congrArg _ hrest⟩

/-- Two rendered texts are equal exactly when what they show is. -/
theorem renderPhoneConfig_inj [UnicodeDb] {c₁ c₂ : CheckedConfig} {p₁ p₂ : PeerConfig}
    {server₁ server₂ private₁ private₂ preshared₁ preshared₂ : String}
    (hp₁ : p₁ ∈ c₁.wireguard.peers) (hp₂ : p₂ ∈ c₂.wireguard.peers)
    (hserver : OneLine server₁ ∧ OneLine server₂) (hprivate : OneLine private₁ ∧ OneLine private₂)
    (hpreshared : OneLine preshared₁ ∧ OneLine preshared₂) :
    renderPhoneConfig c₁.toProjectConfig p₁ server₁ private₁ preshared₁ =
        renderPhoneConfig c₂.toProjectConfig p₂ server₂ private₂ preshared₂ ↔
      phoneSettings c₁.toProjectConfig p₁ = phoneSettings c₂.toProjectConfig p₂ ∧
        server₁ = server₂ ∧ private₁ = private₂ ∧ preshared₁ = preshared₂ := by
  have hdns₁ := c₁.dns_enabled_iff
  have hdns₂ := c₂.dns_enabled_iff
  rw [← String.toList_inj, toList_renderPhoneConfig, toList_renderPhoneConfig]
  constructor
  · intro h
    obtain ⟨hkey, h⟩ := append_first_inj hprivate.1 hprivate.2 (List.append_cancel_left h)
    obtain ⟨haddresses, h⟩ := addresses_inj (c₁.peer_checked hp₁).2.1 (c₂.peer_checked hp₂).2.1
      (List.append_cancel_left h)
    rw [effectiveRoutes_texts, effectiveRoutes_texts] at h
    have hsection (c : CheckedConfig) (p : PeerConfig) {server preshared : String}
        (hserver : OneLine server) (hpreshared : OneLine preshared) :=
      noBlankLine_peerSection (c.effectiveRoutes.map (·.interface))
        p.persistentKeepaliveSeconds hserver hpreshared (oneLine_endpoint c)
    obtain ⟨hdns, h⟩ := dns_inj p₁ p₂ hdns₁ hdns₂
      (hsection c₁ p₁ hserver.1 hpreshared.1)
      (hsection c₂ p₂ hserver.2 hpreshared.2) h
    obtain ⟨hs, hpsk, hendpoint, hroutes, hkeepalive⟩ := peerSection_inj hserver hpreshared
      ⟨oneLine_endpoint c₁, oneLine_endpoint c₂⟩
      ⟨by simpa using c₁.effectiveRoutes_ne_nil, by simpa using c₂.effectiveRoutes_ne_nil⟩ h
    rw [← effectiveRoutes_texts, ← effectiveRoutes_texts] at hroutes
    refine ⟨?_, hs, String.toList_inj.mp hkey, hpsk⟩
    rw [PhoneSettings.mk.injEq]
    exact ⟨haddresses, hroutes, hdns, hendpoint, hkeepalive⟩
  · rintro ⟨hsettings, rfl, rfl, rfl⟩
    have haddresses := congrArg PhoneSettings.addresses hsettings
    have hroutes := congrArg PhoneSettings.allowedRoutes hsettings
    have hdns := congrArg PhoneSettings.dns hsettings
    have hendpoint := congrArg PhoneSettings.endpoint hsettings
    have hkeepalive := congrArg PhoneSettings.keepalive hsettings
    simp only [phoneSettings] at haddresses hroutes hendpoint hkeepalive
    have hdnsChars : dnsChars c₁.toProjectConfig = dnsChars c₂.toProjectConfig := by
      rcases dnsChars_cases hdns₁ p₁ with ⟨hd₁, hn₁⟩ | ⟨u₁, hd₁, hn₁⟩ <;>
        rcases dnsChars_cases hdns₂ p₂ with ⟨hd₂, hn₂⟩ | ⟨u₂, hd₂, hn₂⟩
      · rw [hd₁, hd₂]
      · cases hn₁.symm.trans (hdns.trans hn₂)
      · cases hn₁.symm.trans (hdns.trans hn₂)
      · have htext := hn₁.symm.trans (hdns.trans hn₂)
        rw [hd₁, hd₂, Option.some.inj htext]
    rw [haddresses, hroutes, hendpoint, hkeepalive, hdnsChars]

/-! ## Fingerprint and text -/

/-- The keys of a phone configuration, as they are loaded. -/
structure PhoneKeys where
  serverPublicKey : String
  peerPrivateKey : String
  presharedKey : String
  valid : ∀ key ∈ [serverPublicKey, peerPrivateKey, presharedKey], Keys.Valid key

/-- SHA-256 tells two messages apart. -/
def Distinguishes (m m' : List (BitVec 8)) : Prop := Sha256.hexdigest m = Sha256.hexdigest m' → m = m'

namespace PhoneKeys

variable (keys : PhoneKeys)

theorem oneLine : OneLine keys.serverPublicKey ∧ OneLine keys.peerPrivateKey ∧
    OneLine keys.presharedKey :=
  ⟨(keys.valid _ (by simp)).oneLine, (keys.valid _ (by simp)).oneLine,
    (keys.valid _ (by simp)).oneLine⟩

theorem ascii : ∀ c ∈ keys.presharedKey.toList, c.toNat < 128 :=
  (keys.valid _ (by simp)).ascii

/-- Valid keys are hashed. -/
theorem phoneFingerprint_eq (config : ProjectConfig) (peer : PeerConfig)
    (serverPublicKey peerPublicKey : String) :
    phoneFingerprint config peer serverPublicKey peerPublicKey keys.presharedKey =
      .ok (Sha256.hexdigest (Sha256.ascii
        (fingerprintText config peer serverPublicKey peerPublicKey keys.presharedKey))) := by
  have hascii : (keys.presharedKey.toList.all fun c => c.toNat < 128) = true :=
    List.all_eq_true.mpr fun c hc => decide_eq_true (keys.ascii c hc)
  rw [phoneFingerprint, hascii]
  rfl

end PhoneKeys

/-- Two fingerprints are equal exactly when the phones' texts are: for any two accepted
configurations and peers of them, any valid keys, public keys that are an injective function of
the private ones, and messages SHA-256 tells apart. -/
theorem phoneFingerprint_eq_iff [UnicodeDb] (c₁ c₂ : CheckedConfig) (p₁ p₂ : PeerConfig)
    (keys₁ keys₂ : PhoneKeys) (publicKey : String → String)
    (hp₁ : p₁ ∈ c₁.wireguard.peers) (hp₂ : p₂ ∈ c₂.wireguard.peers)
    (hpublic : Set.InjOn publicKey {key | Keys.Valid key})
    (hpreshared : Distinguishes (Sha256.ascii keys₁.presharedKey)
      (Sha256.ascii keys₂.presharedKey))
    (hvalue : Distinguishes
      (Sha256.ascii (fingerprintText c₁.toProjectConfig p₁ keys₁.serverPublicKey
        (publicKey keys₁.peerPrivateKey) keys₁.presharedKey))
      (Sha256.ascii (fingerprintText c₂.toProjectConfig p₂ keys₂.serverPublicKey
        (publicKey keys₂.peerPrivateKey) keys₂.presharedKey))) :
    phoneFingerprint c₁.toProjectConfig p₁ keys₁.serverPublicKey (publicKey keys₁.peerPrivateKey)
        keys₁.presharedKey =
      phoneFingerprint c₂.toProjectConfig p₂ keys₂.serverPublicKey
        (publicKey keys₂.peerPrivateKey) keys₂.presharedKey ↔
    renderPhoneConfig c₁.toProjectConfig p₁ keys₁.serverPublicKey keys₁.peerPrivateKey
        keys₁.presharedKey =
      renderPhoneConfig c₂.toProjectConfig p₂ keys₂.serverPublicKey keys₂.peerPrivateKey
        keys₂.presharedKey := by
  rw [keys₁.phoneFingerprint_eq, keys₂.phoneFingerprint_eq,
    renderPhoneConfig_inj hp₁ hp₂ ⟨keys₁.oneLine.1, keys₂.oneLine.1⟩
      ⟨keys₁.oneLine.2.1, keys₂.oneLine.2.1⟩ ⟨keys₁.oneLine.2.2, keys₂.oneLine.2.2⟩]
  constructor
  · intro h
    have htext := ascii_inj (ascii_dumps fingerprintValue_wellFormed _)
      (ascii_dumps fingerprintValue_wellFormed _) (hvalue (Except.ok.inj h))
    obtain ⟨hsettings, hserver, hpub, hdigest⟩ := fingerprintText_inj htext
    exact ⟨hsettings, hserver,
      hpublic (keys₁.valid _ (by simp)) (keys₂.valid _ (by simp)) hpub,
      ascii_inj keys₁.ascii keys₂.ascii (hpreshared hdigest)⟩
  · rintro ⟨hsettings, hserver, hprivate, hpsk⟩
    rw [fingerprintText, fingerprintText, hsettings, hserver, hprivate, hpsk]

/-- The example configuration with another MTU and another SSH user, which no phone sees. -/
def retunedProject : ProjectConfig :=
  { exampleProject with
    wireguard.mtu := 1280
    ssh.user := "tunnel" }

def retunedConfig : @CheckedConfig asciiDb :=
  @CheckedConfig.mk asciiDb retunedProject (by decide +kernel)

def exampleKeys : PhoneKeys where
  serverPublicKey := "AAAAAAAAAAAAAAAAAAAAAAAAAAAAAAAAAAAAAAAAAAA="
  peerPrivateKey := "AQEBAQEBAQEBAQEBAQEBAQEBAQEBAQEBAQEBAQEBAQE="
  presharedKey := "AgICAgICAgICAgICAgICAgICAgICAgICAgICAgICAgI="
  valid := by decide +kernel

/-- The first peer of the example. -/
def examplePeer : PeerConfig := exampleProject.wireguard.peers.head (by decide)

theorem phoneSettings_retuned :
    phoneSettings exampleProject examplePeer = phoneSettings retunedProject examplePeer := rfl

theorem phoneFingerprint_retuned :
    phoneFingerprint exampleProject examplePeer exampleKeys.serverPublicKey
        exampleKeys.peerPrivateKey exampleKeys.presharedKey =
      phoneFingerprint retunedProject examplePeer exampleKeys.serverPublicKey
        exampleKeys.peerPrivateKey exampleKeys.presharedKey := by
  let := asciiDb
  have hpeer : examplePeer ∈ exampleProject.wireguard.peers := List.head_mem _
  have hiff := phoneFingerprint_eq_iff exampleConfig retunedConfig examplePeer examplePeer
    exampleKeys exampleKeys id hpeer hpeer (Set.injOn_id _) (fun _ => rfl) fun _ => by
      rw [fingerprintText, fingerprintText]
      exact congrArg (fun settings => Sha256.ascii (Json.dumps .compact
        (fingerprintValue settings _ _ _))) phoneSettings_retuned
  exact hiff.mpr ((renderPhoneConfig_inj hpeer hpeer ⟨exampleKeys.oneLine.1, exampleKeys.oneLine.1⟩
    ⟨exampleKeys.oneLine.2.1, exampleKeys.oneLine.2.1⟩
    ⟨exampleKeys.oneLine.2.2, exampleKeys.oneLine.2.2⟩).mpr ⟨phoneSettings_retuned, rfl, rfl, rfl⟩)

end ShuttleGate
