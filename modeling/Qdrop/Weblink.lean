import Qdrop.Control
import Qdrop.FileXfer.Receive

/-!
# Opening links (`qdropd/src/weblink.rs`)

What a peer's `OpenUrl` makes the daemon do, and which links the daemon sends.  `is_allowed_url` checks the URL without
the whitespace around it, while the launcher and the peers get it as it came; `safe_url_iff` says that a URL with such
whitespace is the only one that is handed on without being safe.
-/

namespace Qdrop

/-- What handling an `OpenUrl` does. -/
inductive LinkEffect where
  | notify (summary body : String)
  /-- The launcher is started with one argument. -/
  | spawn (launcher arg : String)
deriving DecidableEq, Repr

/-- `peer_label`: the name of a device, or its id if it is not listed. -/
def peerLabel (registry : PeersFile) (deviceId : DeviceId) : String :=
  match registry.load with
  | .ok doc => ((doc.findById deviceId).map (·.name)).getD deviceId
  | .error _ => deviceId

namespace Weblink

/-- `handle_inbound`; `launched` tells whether the launcher could be started. -/
def handleInbound (os : Platform) (registry : PeersFile) (launched : Bool) (peerId : DeviceId) (url : String)
    (confirm : ConfirmPolicy) : List LinkEffect :=
  if isAllowedUrl url = false then []
  else if needsConfirm confirm registry peerId then
    [.notify "Link from a device" s!"{peerLabel registry peerId} wants to open: {url}"]
  else
    let launcher := match os with
      | .macos => "open"
      | .other => "xdg-open"
    .spawn launcher url ::
      if launched then [.notify "Opened a link" s!"From {peerLabel registry peerId}: {url}"] else []

/-- The frames that `dispatch` hands to the peers. -/
def sent (bus : Bus) (registry : PeersFile) (url : String) (dest : Option String) : List (DeviceId × Message) :=
  match dispatch bus registry url dest with
  | .ok targets => bus.handed targets (.openUrl url)
  | .error _ => []

end Weblink

/-! ### Safe URLs -/

/-- A URL that may be handed to the launcher: short, of visible characters without quotes, of an allowed scheme and of
the shape of this scheme. -/
structure SafeUrl (url : String) : Prop where
  short : url.utf8ByteSize ≤ 4096
  clean : ∀ c ∈ url.toList, isControl c = false ∧ isWhitespace c = false ∧ isQuote c = false
  shape : ∃ scheme rest, url.toList = scheme ++ ':' :: rest ∧ toAsciiLowercase scheme ∈ urlSchemeAllowlist ∧
    (toAsciiLowercase scheme = "http" ∨ toAsciiLowercase scheme = "https" →
      ∃ host, rest = '/' :: '/' :: host ∧ host ≠ []) ∧
    (toAsciiLowercase scheme = "mailto" → '@' ∈ rest)

/-- The URL begins or ends with whitespace. -/
def Padded (url : String) : Prop :=
  ∃ c, (url.toList.head? = some c ∨ url.toList.getLast? = some c) ∧ isWhitespace c = true

theorem splitOnce_eq_some {sep : Char} {s before after : List Char} (h : splitOnce sep s = some (before, after)) :
    s = before ++ sep :: after := by
  unfold splitOnce at h
  split at h
  · cases h
  · rename_i c rest hdrop
    cases h
    have hc := List.head?_dropWhile_not (fun x => decide (x ≠ sep)) s
    rw [hdrop] at hc
    obtain rfl : c = sep := by simpa using hc
    rw [← hdrop]
    exact List.takeWhile_append_dropWhile.symm

/-- What follows a prefix of two slashes. -/
private theorem after_slashes {rest : List Char} (h : ['/', '/'].isPrefixOf rest = true)
    (hlen : 2 < (String.ofList rest).utf8ByteSize) : ∃ host, rest = '/' :: '/' :: host ∧ host ≠ [] := by
  obtain ⟨host, rfl⟩ := List.isPrefixOf_iff_prefix.1 h
  refine ⟨host, rfl, ?_⟩
  rintro rfl
  exact absurd hlen (by decide)

/-- The checks guarantee what they are for, of the URL they are made on. -/
theorem safeUrl_of_isAllowedTrimmed {url : String} (h : isAllowedTrimmed url.toList = true) : SafeUrl url := by
  unfold isAllowedTrimmed at h
  split at h
  · cases h
  · rename_i hlen
    rw [String.ofList_toList] at hlen
    split at h
    · cases h
    · rename_i hclean
      split at h
      · cases h
      · rename_i scheme rest hsplit
        split at h
        · cases h
        · rename_i hallowed
          refine ⟨Nat.le_of_not_lt fun hlt => hlen (Or.inr hlt), fun c hc => ?_, scheme, rest,
            splitOnce_eq_some hsplit, not_not.1 hallowed, ?_, ?_⟩
          · have hno := List.any_eq_false.1 (Bool.eq_false_iff.2 hclean) c hc
            simpa [and_assoc] using hno
          · intro hscheme
            rcases hscheme with hscheme | hscheme
            · rw [hscheme] at h
              simp only [Bool.and_eq_true, decide_eq_true_eq] at h
              exact after_slashes h.1 h.2
            · rw [hscheme] at h
              simp only [Bool.and_eq_true, decide_eq_true_eq] at h
              exact after_slashes h.1 h.2
          · intro hscheme
            rw [hscheme] at h
            simpa using h

/-- A URL that is allowed is safe exactly when there is no whitespace around it. -/
theorem safeUrl_iff {url : String} (h : isAllowedUrl url = true) : SafeUrl url ↔ ¬ Padded url := by
  constructor
  · rintro hsafe ⟨c, hc, hw⟩
    have hmem : c ∈ url.toList := by
      rcases hc with hc | hc
      · exact List.mem_of_head? hc
      · exact List.mem_of_getLast? hc
    rw [(hsafe.clean c hmem).2.1] at hw
    cases hw
  · intro hpad
    have htrim : trim url.toList = url.toList := trim_eq_self fun c hc => by
      by_contra hw
      exact hpad ⟨c, hc, by simpa using hw⟩
    rw [isAllowedUrl, htrim] at h
    exact safeUrl_of_isAllowedTrimmed h

/-! ### What is handed on -/

/-- The launcher gets the URL of the frame, if it is allowed and not held. -/
theorem mem_handleInbound {os : Platform} {registry : PeersFile} {launched : Bool} {peerId : DeviceId} {url : String}
    {confirm : ConfirmPolicy} {arg : String} :
    (∃ launcher, .spawn launcher arg ∈ Weblink.handleInbound os registry launched peerId url confirm) ↔
      isAllowedUrl url = true ∧ needsConfirm confirm registry peerId = false ∧ arg = url := by
  unfold Weblink.handleInbound
  cases isAllowedUrl url with
  | false => simp
  | true =>
    cases needsConfirm confirm registry peerId with
    | true => simp
    | false => cases launched <;> simp

/-- The peers get the URL that was given, if it is allowed. -/
theorem mem_sent {bus : Bus} {registry : PeersFile} {url : String} {dest : Option String} {p : DeviceId}
    {msg : Message} : (p, msg) ∈ Weblink.sent bus registry url dest ↔
      isAllowedUrl url = true ∧ (p ∈ bus.targets registry dest ∧ bus.sendTo p = true) ∧ msg = .openUrl url := by
  unfold Weblink.sent dispatch
  cases isAllowedUrl url with
  | false => simp
  | true =>
    cases htargets : bus.targets registry dest with
    | nil => cases dest <;> simp
    | cons q targets =>
      simp only [Bool.true_eq_false, if_false, Bus.handed, List.mem_map, List.mem_filter, Prod.mk.injEq, true_and]
      constructor
      · rintro ⟨p', hp, rfl, rfl⟩
        exact ⟨hp, rfl⟩
      · rintro ⟨hp, rfl⟩
        exact ⟨p, hp, rfl, rfl⟩

/-- Every argument of the launcher is a safe URL if and only if the URL of the frame has no whitespace around it, is
refused or is held for confirmation; and every URL that `dispatch` sends is safe if and only if the given one has no
whitespace around it, is refused or reaches nobody. -/
theorem handed_on_safe_iff (os : Platform) (registry : PeersFile) (launched : Bool) (peerId : DeviceId) (url : String)
    (confirm : ConfirmPolicy) (bus : Bus) (dest : Option String) :
    ((∀ launcher arg, .spawn launcher arg ∈ Weblink.handleInbound os registry launched peerId url confirm →
        SafeUrl arg) ↔
      (isAllowedUrl url = true → needsConfirm confirm registry peerId = false → ¬ Padded url)) ∧
    ((∀ p url', (p, Message.openUrl url') ∈ Weblink.sent bus registry url dest → SafeUrl url') ↔
      (isAllowedUrl url = true → (∃ p ∈ bus.targets registry dest, bus.sendTo p = true) → ¬ Padded url)) := by
  constructor
  · constructor
    · intro h hok hheld
      obtain ⟨launcher, hmem⟩ := mem_handleInbound.2 ⟨hok, hheld, rfl⟩
      exact (safeUrl_iff hok).1 (h launcher url hmem)
    · intro h launcher arg hmem
      obtain ⟨hok, hheld, rfl⟩ := mem_handleInbound.1 ⟨launcher, hmem⟩
      exact (safeUrl_iff hok).2 (h hok hheld)
  · constructor
    · rintro h hok ⟨p, hp, hslot⟩
      exact (safeUrl_iff hok).1 (h p url (mem_sent.2 ⟨hok, ⟨hp, hslot⟩, rfl⟩))
    · intro h p url' hmem
      obtain ⟨hok, hp, hurl⟩ := mem_sent.1 hmem
      obtain rfl := Message.openUrl.inj hurl
      exact (safeUrl_iff hok).2 (h hok ⟨p, hp⟩)

/-- A peer's URL with a blank before it reaches the launcher with the blank. -/
theorem padded_url_launched :
    ¬ ∀ (os : Platform) (registry : PeersFile) (launched : Bool) (peerId : DeviceId) (url : String)
      (confirm : ConfirmPolicy) (launcher arg : String),
      .spawn launcher arg ∈ Weblink.handleInbound os registry launched peerId url confirm → SafeUrl arg := by
  intro h
  have hmem : .spawn "xdg-open" " https://example.com" ∈
      Weblink.handleInbound .other .absent true "p" " https://example.com" .never := by decide +kernel
  have hclean := (h _ _ _ _ _ _ _ _ hmem).clean ' ' (by decide)
  exact absurd hclean.2.1 (by decide)

end Qdrop
