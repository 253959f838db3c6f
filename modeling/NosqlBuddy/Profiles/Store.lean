import Mathlib.Data.List.Nodup
import NosqlBuddy.Profiles.MongoUri
import NosqlBuddy.Lib.Runs

/-!
# The profile store

`mongo/profiles.rs`. The metadata is in a file behind a cache, the secrets are in the keychain, and an operation writes one after the
other.

| here | there |
| --- | --- |
| `SshTunnelConfig`, `Socks5Config`, `TlsConfig` | `mongo/types.rs:33`, :48, :60 |
| `ProfileStore.cache`, `.file` | the store of `tauri-plugin-store`: `set` writes the cache, `save` the file |
| `ProfileStore.keychain` | `KeyringSecretStore` (`mongo/credentials.rs:33`) |

A URI and a secret are lists of characters, as for the scanners. What fails in an operation is its `Answers`; a call that fails
leaves what it is about as it was. Between the operations the plugin saves the cache by itself, or the application is started anew.
-/

namespace Profiles
open Runs Cut

/-! ## The source -/

inductive AuthMechanism where
  | none | scramSha1 | scramSha256 | x509 | ldap | kerberos | awsIam
deriving DecidableEq, Repr

structure SshTunnelConfig where
  host : String
  port : UInt16
  user : String
  privateKeyPath : Option String
  password : Option (List Char)
deriving DecidableEq, Repr

structure Socks5Config where
  host : String
  port : UInt16
  user : Option String
  password : Option (List Char)
deriving DecidableEq, Repr

/-- File paths and flags, no secrets. -/
structure TlsConfig where
  enabled : Option Bool
  certKeyFile : Option String
  caFile : Option String
  allowInvalidCertificates : Option Bool
deriving DecidableEq, Repr

/-- `ConnectionProfile` (types.rs:89). -/
structure ConnectionProfile where
  id : String
  name : String
  uri : List Char
  authMechanism : AuthMechanism
  secret : Option (List Char)
  group : Option String
  color : Option String
  notes : Option String
  sshTunnel : Option SshTunnelConfig
  socks5 : Option Socks5Config
  tls : Option TlsConfig
deriving DecidableEq, Repr

structure StoredProfile where
  id : String
  name : String
  uri : List Char
  authMechanism : AuthMechanism
  hasSecret : Bool
  group : Option String
  color : Option String
  notes : Option String
  sshTunnel : Option SshTunnelConfig
  socks5 : Option Socks5Config
  tls : Option TlsConfig
deriving DecidableEq, Repr

/-- `StoredProfile::from`, with the flag that `upsert` sets. -/
def StoredProfile.of (p : ConnectionProfile) (hasSecret : Bool) : StoredProfile where
  id := p.id
  name := p.name
  uri := p.uri
  authMechanism := p.authMechanism
  hasSecret := hasSecret
  group := p.group
  color := p.color
  notes := p.notes
  sshTunnel := p.sshTunnel
  socks5 := p.socks5
  tls := p.tls

/-- `AppError` (`error.rs:21`), the variants that are built here. -/
inductive AppError where
  | internal (message : String)
  | credential (message : String)
  | profileNotFound (id : String)
  | profileExists (name : String)
deriving DecidableEq, Repr

structure ProfileStore where
  cache : List StoredProfile
  file : List StoredProfile
  keychain : String → Option (List Char)

/-- The errors of the calls of an operation. -/
structure Answers where
  /-- Opening or decoding the store in `load_all`. -/
  load : Option String := none
  /-- The call to the keychain: each operation makes one at most. -/
  keychain : Option String := none
  /-- Opening the store in `save_all`. -/
  reopen : Option String := none
  save : Option String := none
deriving DecidableEq, Repr

def ProfileStore.loadAll (s : ProfileStore) (answers : Answers) : Except AppError (List StoredProfile) :=
  match answers.load with
  | some e => .error (.internal e)
  | none => .ok s.cache

def ProfileStore.saveAll (s : ProfileStore) (answers : Answers) (profiles : List StoredProfile) : Except AppError Unit × ProfileStore :=
  match answers.reopen with
  | some e => (.error (.internal ("profile store open: " ++ e)), s)
  | none =>
    match answers.save with
    | some e => (.error (.internal ("profile store save: " ++ e)), { s with cache := profiles })
    | none => (.ok (), { s with cache := profiles, file := profiles })

/-- The entry of the profile in the keychain is written, or deleted. -/
def ProfileStore.setSecret (s : ProfileStore) (id : String) (secret : Option (List Char)) : ProfileStore :=
  { s with keychain := Function.update s.keychain id secret }

section
variable (replaced : List UInt8 → List Char)

def splitUriAndSecret (uri : List Char) (secret : Option (List Char)) : List Char × Option (List Char) :=
  let stripped := stripPassword replaced uri
  (stripped.uri, match secret with
    | some (c :: cs) => some (c :: cs)
    | other => match stripped.password with
      | some pw => some pw
      | none => other)

/-- The profile as `upsert` goes on with it: it has an id, and its URI has no password. -/
def sanitized (profile : ConnectionProfile) (uuid : String) : ConnectionProfile :=
  let split := splitUriAndSecret replaced profile.uri profile.secret
  { profile with id := if profile.id = "" then uuid else profile.id, uri := split.1, secret := split.2 }

end

/-- Another profile has the name already. -/
def nameTaken (profiles : List StoredProfile) (profile : ConnectionProfile) : Bool :=
  match profiles.find? fun p => p.id = profile.id with
  | some existing => existing.name ≠ profile.name ∧ profiles.any fun p => p.id ≠ profile.id ∧ p.name = profile.name
  | none => profiles.any fun p => p.name = profile.name

/-- Whether the profile has a secret afterwards. -/
def ProfileStore.persistSecret (s : ProfileStore) (answers : Answers) (profile : ConnectionProfile) :
    Except AppError Bool × ProfileStore :=
  match profile.secret with
  | some [] => (.ok false, if answers.keychain.isSome then s else s.setSecret profile.id none)
  | some secret =>
    match answers.keychain with
    | some e => (.error (.credential e), s)
    | none => (.ok true, s.setSecret profile.id (some secret))
  | none =>
    match answers.keychain with
    | some e => (.error (.credential e), s)
    | none => (.ok (s.keychain profile.id).isSome, s)

/-- The profiles with the new one in the last place. -/
def replaceProfile (profiles : List StoredProfile) (stored : StoredProfile) : List StoredProfile :=
  profiles.filter (fun p => p.id ≠ stored.id) ++ [stored]

section
variable (replaced : List UInt8 → List Char)

/-- `Uuid::new_v4` is the argument `uuid`. -/
def ProfileStore.upsert (s : ProfileStore) (answers : Answers) (profile : ConnectionProfile) (uuid : String) :
    Except AppError ConnectionProfile × ProfileStore :=
  let profile := sanitized replaced profile uuid
  match s.loadAll answers with
  | .error e => (.error e, s)
  | .ok profiles =>
    if nameTaken profiles profile then (.error (.profileExists profile.name), s)
    else match s.persistSecret answers profile with
      | (.error e, s) => (.error e, s)
      | (.ok hasSecret, s) =>
        match s.saveAll answers (replaceProfile profiles (.of profile hasSecret)) with
        | (.error e, s) => (.error e, s)
        | (.ok (), s) => (.ok { profile with secret := none }, s)

end

def ProfileStore.get (s : ProfileStore) (answers : Answers) (id : String) : Except AppError ConnectionProfile :=
  match s.loadAll answers with
  | .error e => .error e
  | .ok profiles =>
    match profiles.find? fun p => p.id = id with
    | none => .error (.profileNotFound id)
    | some stored =>
      match answers.keychain with
      | some e => .error (.credential e)
      | none => .ok ⟨stored.id, stored.name, stored.uri, stored.authMechanism, s.keychain id, stored.group, stored.color, stored.notes,
          stored.sshTunnel, stored.socks5, stored.tls⟩

def ProfileStore.delete (s : ProfileStore) (answers : Answers) (id : String) : Except AppError Unit × ProfileStore :=
  match s.loadAll answers with
  | .error e => (.error e, s)
  | .ok profiles =>
    let kept := profiles.filter fun p => p.id ≠ id
    if kept.length = profiles.length then (.error (.profileNotFound id), s)
    else match s.saveAll answers kept with
      | (.error e, s) => (.error e, s)
      | (.ok (), s) => (.ok (), if answers.keychain.isSome then s else s.setSecret id none)

inductive Op where
  | upsert (profile : ConnectionProfile) (uuid : String)
  | get (id : String)
  | delete (id : String)
deriving DecidableEq, Repr

inductive Input where
  | call (op : Op) (answers : Answers)
  /-- The plugin saves the cache by itself. -/
  | autosave
  /-- The application is started anew. -/
  | restart
deriving DecidableEq, Repr

section
variable (replaced : List UInt8 → List Char)

/-- The error of an operation, and the stores after it. -/
def execOp (s : ProfileStore) (answers : Answers) : Op → Option AppError × ProfileStore
  | .upsert profile uuid =>
    match s.upsert replaced answers profile uuid with
    | (.error e, s) => (some e, s)
    | (.ok _, s) => (none, s)
  | .get id =>
    match s.get answers id with
    | .error e => (some e, s)
    | .ok _ => (none, s)
  | .delete id =>
    match s.delete answers id with
    | (.error e, s) => (some e, s)
    | (.ok _, s) => (none, s)

def stepStore (s : ProfileStore) : Input → ProfileStore
  | .call op answers => (execOp replaced s answers op).2
  | .autosave => { s with file := s.cache }
  | .restart => { s with cache := s.file }

end

/-- Before the first profile; the keychain may have entries. -/
def ProfileStore.init (keychain : String → Option (List Char)) : ProfileStore := ⟨[], [], keychain⟩

/-! ## The statement -/

/-- The authority has a userinfo with a password. -/
def ShowsPassword (uri : List Char) : Prop :=
  ∃ user raw hosts, authority uri = user ++ ':' :: raw ++ '@' :: hosts ∧ raw ≠ []

def NoPassword (password : Option (List Char)) : Prop := password = none ∨ password = some []

/-- No secret stands in clear in the metadata of the profile. -/
structure NoSecret (p : StoredProfile) : Prop where
  uri : ¬ ShowsPassword p.uri
  sshTunnel : ∀ t, p.sshTunnel = some t → NoPassword t.password
  socks5 : ∀ t, p.socks5 = some t → NoPassword t.password

/-- What is expected of the metadata, next to the keychain. -/
structure WellStored (profiles : List StoredProfile) (keychain : String → Option (List Char)) : Prop where
  ids : (profiles.map (·.id)).Nodup
  names : (profiles.map (·.name)).Nodup
  clear : ∀ p ∈ profiles, NoSecret p
  secrets : ∀ p ∈ profiles, p.hasSecret = true ↔ (keychain p.id).isSome = true

/-- Over a run of operations the file stays as expected, and an operation with an error leaves the file and the keychain as they
were. -/
structure KeepsProfiles (replaced : List UInt8 → List Char) (start : ProfileStore) (inputs : List Input) : Prop where
  stored : ∀ pre, pre <+: inputs →
    WellStored (run (stepStore replaced) start pre).file (run (stepStore replaced) start pre).keychain
  unchanged : ∀ pre op answers, pre ++ [.call op answers] <+: inputs →
    (execOp replaced (run (stepStore replaced) start pre) answers op).1.isSome = true →
      (run (stepStore replaced) start (pre ++ [.call op answers])).file = (run (stepStore replaced) start pre).file ∧
      (run (stepStore replaced) start (pre ++ [.call op answers])).keychain = (run (stepStore replaced) start pre).keychain

/-- Behind the first `@` stands another userinfo with a password. -/
def NestedPassword (uri : List Char) : Prop := ∃ userinfo tail user raw hosts, afterScheme uri = userinfo ++ '@' :: tail ∧
  '@' ∉ userinfo ∧ tail.takeWhile (fun c => c ∉ ['/', '?', '#']) = user ++ ':' :: raw ++ '@' :: hosts ∧ raw ≠ []

/-- The only secrets of the profile are the one of its URI and its secret. -/
structure PlainSecrets (profile : ConnectionProfile) : Prop where
  uri : ¬ NestedPassword profile.uri
  sshTunnel : ∀ t, profile.sshTunnel = some t → NoPassword t.password
  socks5 : ∀ t, profile.socks5 = some t → NoPassword t.password

/-- The keychain entry of the profile does not change, or nothing fails. -/
def Whole (s : ProfileStore) (answers : Answers) (profile : ConnectionProfile) : Prop :=
  match profile.secret with
  | none => True
  | some [] => s.keychain profile.id = none ∨ answers.keychain = none ∧ answers.reopen = none ∧ answers.save = none
  | some secret => s.keychain profile.id = some secret ∨ answers.reopen = none ∧ answers.save = none

/-- The steps that keep the profiles: an upsert that is not refused before it saves has plain secrets, and changes its keychain
entry only when nothing fails. -/
def Careful (replaced : List UInt8 → List Char) (s : ProfileStore) : Input → Prop
  | .call (.upsert profile uuid) answers =>
    let profile' := sanitized replaced profile uuid
    answers.load = none → nameTaken s.cache profile' = false → (answers.keychain.isSome = true → profile'.secret = some []) →
      PlainSecrets profile ∧ Whole s answers profile'
  | _ => True

/-! ## The URI -/

theorem shows_of_nameOnly (h : afterScheme uri = userinfo ++ '@' :: tail) (hat : '@' ∉ userinfo)
    (hcolon : ':' ∉ userinfo) (hshows : ShowsPassword uri) : ∃ user raw hosts,
      tail.takeWhile (fun c => c ∉ ['/', '?', '#']) = user ++ ':' :: raw ++ '@' :: hosts ∧ raw ≠ [] := by
  obtain ⟨user, raw, hosts, hauth, hraw⟩ := hshows
  rw [authority, h, List.takeWhile_append] at hauth
  split at hauth
  · have hW : ':' ∉ userinfo ++ ['@'] := by simp [hcolon]
    have hparts : (userinfo ++ ['@']) ++ tail.takeWhile (fun c => c ∉ ['/', '?', '#']) = user ++ (':' :: raw ++ '@' :: hosts) := by
      rw [← List.append_assoc user, ← hauth]
      simp
    rcases List.append_eq_append_iff.1 hparts with ⟨user', rfl, htail⟩ | ⟨c', hc', htail⟩
    · exact ⟨user', raw, hosts, by rw [htail]; simp, hraw⟩
    · cases c' with
      | nil => exact ⟨[], raw, hosts, by simpa using htail.symm, hraw⟩
      | cons c c' =>
        rw [List.cons_append, List.cons_append, List.cons.injEq] at htail
        exact absurd (by rw [hc', ← htail.1]; simp) hW
  · have hmem : '@' ∈ userinfo.takeWhile fun c => c ∉ ['/', '?', '#'] := by
      rw [hauth]
      simp
    exact absurd ((List.takeWhile_prefix _).subset hmem) hat

theorem not_shows_strip (replaced : List UInt8 → List Char) (h : ¬ NestedPassword uri) :
    ¬ ShowsPassword (stripPassword replaced uri).uri := by
  intro hshows
  rcases shown_cases uri with hno | ⟨name, userinfo, tail, hscheme, hat, hcolon | ⟨user, raw, rfl, hcolon⟩⟩
  · rw [stripPassword_of_notMem hno] at hshows
    obtain ⟨user, raw, hosts, hauth, _⟩ := hshows
    exact hno (authority_sublist uri '@' (by rw [hauth]; simp))
  · rw [stripPassword_nameOnly hscheme hcolon hat] at hshows
    obtain ⟨user, raw, hosts, htail, hraw⟩ := shows_of_nameOnly (afterScheme_eq hscheme) hat hcolon hshows
    exact h ⟨userinfo, tail, user, raw, hosts, afterScheme_eq hscheme, hat, htail, hraw⟩
  · have hat' := hat
    simp only [List.mem_append, List.mem_cons, not_or] at hat'
    rw [stripPassword_at hscheme hcolon hat'.1 hat'.2.2] at hshows
    have hnested : (∃ user raw hosts, tail.takeWhile (fun c => c ∉ ['/', '?', '#']) = user ++ ':' :: raw ++ '@' :: hosts ∧ raw ≠ []) →
        False := by
      rintro ⟨u, r, hosts, htail, hraw⟩
      exact h ⟨_, tail, u, r, hosts, afterScheme_eq hscheme, hat, htail, hraw⟩
    by_cases hempty : user = []
    · rw [if_pos hempty] at hshows
      obtain ⟨u, r, hosts, hauth, hraw⟩ := hshows
      rw [authority, afterScheme_eq (cut_scheme hscheme tail)] at hauth
      exact hnested ⟨u, r, hosts, hauth, hraw⟩
    · rw [if_neg hempty] at hshows
      have hnext : cut [':', '/', '/'] (name ++ [':', '/', '/'] ++ user ++ '@' :: tail) = some (name, user ++ '@' :: tail) := by
        rw [List.append_assoc]
        exact cut_scheme hscheme _
      exact hnested (shows_of_nameOnly (afterScheme_eq hnext) hat'.1 hcolon hshows)

theorem not_nested (h : cut [':', '/', '/'] uri = some (name, userinfo ++ '@' :: tail))
    (hat : '@' ∉ userinfo) (htail : '@' ∉ tail) : ¬ NestedPassword uri := by
  rintro ⟨userinfo', tail', user, raw, hosts, hafter, hat', hshows, _⟩
  rw [afterScheme_eq h] at hafter
  obtain ⟨_, rfl⟩ := append_cons_inj hat hat' hafter
  exact htail ((List.takeWhile_prefix _).subset (by rw [hshows]; simp))

/-! ## One operation -/

section
variable {s s' : ProfileStore} {answers : Answers} {profiles : List StoredProfile} {profile : ConnectionProfile}
  {keychain keychain' : String → Option (List Char)}

theorem name_ne_of_free (h : WellStored profiles keychain) (hfree : nameTaken profiles profile = false) :
    ∀ p ∈ profiles, p.id ≠ profile.id → p.name ≠ profile.name := by
  intro p hp hid hname
  unfold nameTaken at hfree
  split at hfree
  · next existing hfind =>
    have hmem := List.mem_of_find?_eq_some hfind
    have hexisting : existing.id = profile.id := by simpa using List.find?_some hfind
    have hne : existing.name ≠ profile.name := by
      intro hsame
      have heq : p = existing := List.inj_on_of_nodup_map h.names hp hmem (hname.trans hsame.symm)
      exact hid (heq ▸ hexisting)
    simp only [decide_eq_false_iff_not, not_and, Bool.not_eq_true, List.any_eq_false, decide_eq_true_eq] at hfree
    exact hfree hne p hp hid hname
  · rw [List.any_eq_false] at hfree
    exact hfree p hp (by simpa using hname)

theorem WellStored.replace (h : WellStored profiles keychain) (hfree : nameTaken profiles profile = false)
    (hclear : NoSecret (.of profile hasSecret)) (hsecret : hasSecret = true ↔ (keychain' profile.id).isSome = true)
    (hothers : ∀ id, id ≠ profile.id → keychain' id = keychain id) :
    WellStored (replaceProfile profiles (.of profile hasSecret)) keychain' := by
  have hkept : ∀ p ∈ profiles.filter (fun p => p.id ≠ profile.id), p ∈ profiles ∧ p.id ≠ profile.id := by
    intro p hp
    simpa using List.mem_filter.1 hp
  have hnodup : ∀ (f : StoredProfile → String), (profiles.map f).Nodup → (∀ p ∈ profiles, p.id ≠ profile.id →
      f p ≠ f (.of profile hasSecret)) → ((replaceProfile profiles (.of profile hasSecret)).map f).Nodup := by
    intro f hf hne
    rw [replaceProfile, List.map_append, List.nodup_append]
    refine ⟨hf.sublist (List.filter_sublist.map f), by simp, ?_⟩
    intro a ha b hb
    obtain ⟨p, hp, rfl⟩ := List.mem_map.1 ha
    rw [List.map_singleton, List.mem_singleton] at hb
    subst hb
    exact hne p (hkept p hp).1 (hkept p hp).2
  have hmem : ∀ p ∈ replaceProfile profiles (.of profile hasSecret), p ∈ profiles ∧ p.id ≠ profile.id ∨ p = .of profile hasSecret := by
    intro p hp
    rw [replaceProfile, List.mem_append, List.mem_singleton] at hp
    exact hp.imp (hkept p) id
  refine ⟨hnodup _ h.ids fun _ _ hid => hid, hnodup _ h.names (name_ne_of_free h hfree), fun p hp => ?_, fun p hp => ?_⟩
  · rcases hmem p hp with ⟨hp, _⟩ | rfl
    · exact h.clear p hp
    · exact hclear
  · rcases hmem p hp with ⟨hp, hid⟩ | rfl
    · rw [hothers p.id hid]
      exact h.secrets p hp
    · exact hsecret

theorem WellStored.drop {id : String} (h : WellStored profiles keychain) (hothers : ∀ id', id' ≠ id → keychain' id' = keychain id') :
    WellStored (profiles.filter fun p => p.id ≠ id) keychain' := by
  have hkept : ∀ p ∈ profiles.filter (fun p => p.id ≠ id), p ∈ profiles ∧ p.id ≠ id := by
    intro p hp
    simpa using List.mem_filter.1 hp
  refine ⟨h.ids.sublist (List.filter_sublist.map _), h.names.sublist (List.filter_sublist.map _), fun p hp => h.clear p (hkept p hp).1,
    fun p hp => ?_⟩
  rw [hothers p.id (hkept p hp).2]
  exact h.secrets p (hkept p hp).1

/-- What writing a secret does: the lists stay, and so does the keychain outside of the profile. -/
structure Persisted (s : ProfileStore) (answers : Answers) (profile : ConnectionProfile) (hasSecret : Bool) (s' : ProfileStore) :
    Prop where
  cache : s'.cache = s.cache
  file : s'.file = s.file
  others : ∀ id, id ≠ profile.id → s'.keychain id = s.keychain id
  answered : answers.keychain.isSome = true → profile.secret = some []
  secret : Whole s answers profile → (hasSecret = true ↔ (s'.keychain profile.id).isSome = true)
  whole : Whole s answers profile → s'.keychain = s.keychain ∨ answers.reopen = none ∧ answers.save = none

theorem persistSecret_ok (h : s.persistSecret answers profile = (.ok hasSecret, s')) :
    Persisted s answers profile hasSecret s' := by
  have hother : ∀ secret id, id ≠ profile.id → (s.setSecret profile.id secret).keychain id = s.keychain id :=
    fun secret id hid => by simp [ProfileStore.setSecret, hid]
  have hself : ∀ secret, (s.setSecret profile.id secret).keychain profile.id = secret :=
    fun secret => by simp [ProfileStore.setSecret]
  have hsame : ∀ secret, s.keychain profile.id = secret → (s.setSecret profile.id secret).keychain = s.keychain := by
    rintro secret rfl
    exact Function.update_eq_self profile.id s.keychain
  unfold ProfileStore.persistSecret at h
  split at h
  · next hsecret =>
    obtain ⟨rfl, rfl⟩ := by simpa using h
    cases hanswer : answers.keychain with
    | none =>
      refine ⟨rfl, rfl, hother none, fun _ => hsecret, fun _ => ?_, fun hwhole => ?_⟩
      · simp [hself]
      · simp only [Whole, hsecret] at hwhole
        exact hwhole.imp (hsame none) (·.2)
    | some e =>
      -- the error of the keychain is ignored: nothing may be there to delete
      refine ⟨rfl, rfl, fun _ _ => rfl, fun _ => hsecret, fun hwhole => ?_, fun _ => .inl rfl⟩
      simp only [Whole, hsecret, hanswer, reduceCtorEq, false_and, or_false] at hwhole
      simp [hwhole]
  · next secret hne hsecret =>
    split at h
    · cases h
    · next hanswer =>
      obtain ⟨rfl, rfl⟩ := by simpa using h
      refine ⟨rfl, rfl, hother (some secret), fun hk => by simp [hanswer] at hk, fun _ => ?_, fun hwhole => ?_⟩
      · simp [hself]
      · cases secret with
        | nil => exact absurd rfl hne
        | cons c cs =>
          simp only [Whole, hsecret] at hwhole
          exact hwhole.imp (hsame _) id
  · split at h
    · cases h
    · next hanswer =>
      obtain ⟨rfl, rfl⟩ := by simpa using h
      exact ⟨rfl, rfl, fun _ _ => rfl, fun hk => by simp [hanswer] at hk, fun _ => Iff.rfl, fun _ => .inl rfl⟩

theorem persistSecret_error (h : s.persistSecret answers profile = (.error e, s')) : s' = s := by
  unfold ProfileStore.persistSecret at h
  split at h
  · simp at h
  · split at h
    · simp_all
    · simp at h
  · split at h
    · simp_all
    · simp at h

/-- The metadata is well stored, and stays so when the cache is saved. -/
structure StoreInv (s : ProfileStore) : Prop where
  cache : WellStored s.cache s.keychain
  file : WellStored s.file s.keychain

/-- What an operation is to do to the stores. -/
def KeepsStores (s : ProfileStore) (result : Option AppError × ProfileStore) : Prop :=
  StoreInv result.2 ∧ (result.1.isSome = true → result.2.file = s.file ∧ result.2.keychain = s.keychain)

theorem keepsStores_self (h : StoreInv s) (e : Option AppError) : KeepsStores s (e, s) := ⟨h, fun _ => ⟨rfl, rfl⟩⟩

theorem saveAll_keeps (h : StoreInv s) (hfile : s'.file = s.file) (hcache : s'.cache = s.cache)
    (hstored : WellStored profiles s'.keychain) (hwhole : s'.keychain = s.keychain ∨ answers.reopen = none ∧ answers.save = none) :
    StoreInv (s'.saveAll answers profiles).2 ∧ (∀ e, (s'.saveAll answers profiles).1 = .error e →
      (s'.saveAll answers profiles).2.file = s.file ∧ (s'.saveAll answers profiles).2.keychain = s.keychain) := by
  unfold ProfileStore.saveAll
  split
  · next hreopen =>
    have hkeychain : s'.keychain = s.keychain := hwhole.resolve_right fun hw => by simp [hreopen] at hw
    refine ⟨⟨?_, ?_⟩, fun _ _ => ⟨hfile, hkeychain⟩⟩
    · rw [hcache, hkeychain]
      exact h.cache
    · rw [hfile, hkeychain]
      exact h.file
  · split
    · next hsave =>
      have hkeychain : s'.keychain = s.keychain := hwhole.resolve_right fun hw => by simp [hsave] at hw
      refine ⟨⟨hstored, ?_⟩, fun _ _ => ⟨hfile, hkeychain⟩⟩
      rw [hfile, hkeychain]
      exact h.file
    · exact ⟨⟨hstored, hstored⟩, fun _ he => (nomatch he)⟩

variable {replaced : List UInt8 → List Char} {uuid id : String}

theorem sanitized_clear (hasSecret : Bool) (h : PlainSecrets profile) :
    NoSecret (.of (sanitized replaced profile uuid) hasSecret) where
  uri := not_shows_strip replaced h.uri
  sshTunnel := h.sshTunnel
  socks5 := h.socks5

theorem keeps_upsert (h : StoreInv s) (hok : Careful replaced s (.call (.upsert profile uuid) answers)) :
    KeepsStores s (execOp replaced s answers (.upsert profile uuid)) := by
  simp only [Careful] at hok
  simp only [execOp, ProfileStore.upsert, ProfileStore.loadAll]
  cases hload : answers.load with
  | some e => exact keepsStores_self h _
  | none =>
    dsimp only
    cases hfree : nameTaken s.cache (sanitized replaced profile uuid) with
    | true => exact keepsStores_self h _
    | false =>
      simp only [Bool.false_eq_true, if_false]
      rcases hpersist : s.persistSecret answers (sanitized replaced profile uuid) with ⟨e | hasSecret, s'⟩
      · obtain rfl := persistSecret_error hpersist
        exact keepsStores_self h _
      · have hp := persistSecret_ok hpersist
        obtain ⟨hplain, hwhole⟩ := hok hload hfree hp.answered
        have hstored : WellStored (replaceProfile s.cache (.of (sanitized replaced profile uuid) hasSecret)) s'.keychain :=
          h.cache.replace hfree (sanitized_clear hasSecret hplain) (hp.secret hwhole) hp.others
        have hkeeps := saveAll_keeps h hp.file hp.cache hstored (hp.whole hwhole)
        dsimp only
        rcases hsave : s'.saveAll answers (replaceProfile s.cache (.of (sanitized replaced profile uuid) hasSecret)) with ⟨e | _, s''⟩
        · rw [hsave] at hkeeps
          exact ⟨hkeeps.1, fun _ => hkeeps.2 e rfl⟩
        · rw [hsave] at hkeeps
          exact ⟨hkeeps.1, fun hsome => by simp at hsome⟩

theorem keeps_delete (h : StoreInv s) : KeepsStores s (execOp replaced s answers (.delete id)) := by
  simp only [execOp, ProfileStore.delete, ProfileStore.loadAll]
  cases hload : answers.load with
  | some e => exact keepsStores_self h _
  | none =>
    dsimp only
    by_cases hkept : (s.cache.filter fun p => p.id ≠ id).length = s.cache.length
    · rw [if_pos hkept]
      exact keepsStores_self h _
    · rw [if_neg hkept]
      have hdrop : WellStored (s.cache.filter fun p => p.id ≠ id) s.keychain := h.cache.drop fun _ _ => rfl
      have hkeeps := @saveAll_keeps s s answers _ h rfl rfl hdrop (.inl rfl)
      unfold ProfileStore.saveAll at hkeeps ⊢
      cases hreopen : answers.reopen with
      | some e =>
        simp only [hreopen] at hkeeps
        exact ⟨hkeeps.1, fun _ => ⟨rfl, rfl⟩⟩
      | none =>
        cases hsave : answers.save with
        | some e =>
          simp only [hreopen, hsave] at hkeeps
          exact ⟨hkeeps.1, fun _ => ⟨rfl, rfl⟩⟩
        | none =>
          refine ⟨?_, fun hsome => by simp at hsome⟩
          dsimp only
          split
          · exact ⟨hdrop, hdrop⟩
          · have hfree : WellStored (s.cache.filter fun p => p.id ≠ id) (Function.update s.keychain id none) :=
              h.cache.drop fun id' hid => by simp [hid]
            exact ⟨hfree, hfree⟩

theorem keeps_get (h : StoreInv s) : KeepsStores s (execOp replaced s answers (.get id)) := by
  simp only [execOp]
  split
  · exact keepsStores_self h _
  · exact keepsStores_self h _

theorem keeps_op (h : StoreInv s) (hok : Careful replaced s (.call op answers)) :
    KeepsStores s (execOp replaced s answers op) := by
  cases op with
  | upsert profile uuid => exact keeps_upsert h hok
  | get id => exact keeps_get h
  | delete id => exact keeps_delete h

theorem storeInv_step (h : StoreInv s) (hok : Careful replaced s a) : StoreInv (stepStore replaced s a) := by
  cases a with
  | call op answers => exact (keeps_op h hok).1
  | autosave => exact ⟨h.cache, h.cache⟩
  | restart => exact ⟨h.file, h.file⟩

end

/-! ## Runs -/

theorem storeInv_init (keychain : String → Option (List Char)) : StoreInv (.init keychain) :=
  have h : WellStored [] keychain := ⟨List.nodup_nil, List.nodup_nil, by simp, by simp⟩
  ⟨h, h⟩

/-- **The profile store** keeps its profiles over every run of careful steps, whatever else fails on the way. -/
theorem keeps_profiles (replaced : List UInt8 → List Char) (keychain : String → Option (List Char)) (inputs : List Input)
    (h : Guarded (stepStore replaced) (Careful replaced) (.init keychain) inputs) :
    KeepsProfiles replaced (.init keychain) inputs := by
  have hinv : ∀ pre, Guarded (stepStore replaced) (Careful replaced) (.init keychain) pre →
      StoreInv (run (stepStore replaced) (.init keychain) pre) :=
    fun pre hpre => run_inv (I := StoreInv) (fun s a hok hs => storeInv_step hs hok) hpre (storeInv_init keychain)
  constructor
  · rintro pre ⟨post, rfl⟩
    exact (hinv pre (guarded_left h)).file
  · rintro pre op answers ⟨post, rfl⟩ herror
    rw [List.append_assoc] at h
    rw [run_snoc]
    exact (keeps_op (hinv pre (guarded_left h)) (guarded_at h)).2 herror

/-- A profile of a server at home, with a password in its URI. -/
def homeProfile : ConnectionProfile where
  id := "home"
  name := "Home"
  uri := "mongodb://ann:pw@host".toList
  authMechanism := .scramSha256
  secret := none
  group := none
  color := none
  notes := none
  sshTunnel := none
  socks5 := none
  tls := none

/-- The profile is saved; renaming it fails in the keychain, and deleting it in the file. -/
theorem keeps_home : KeepsProfiles (fun _ => []) (.init fun _ => none) [.call (.upsert homeProfile "") {},
    .call (.upsert { homeProfile with name := "House", uri := "mongodb://ann@host".toList } "") { keychain := some "locked" },
    .call (.delete "home") { save := some "disk full" }] := by
  have hsecret : (sanitized (fun _ => []) homeProfile "").secret = some ['p', 'w'] := by decide
  have hkept : (sanitized (fun _ => []) { homeProfile with name := "House", uri := "mongodb://ann@host".toList } "").secret = none := by
    decide
  have hcut : cut [':', '/', '/'] homeProfile.uri =
      some ("mongodb".toList, ['a', 'n', 'n', ':', 'p', 'w'] ++ '@' :: ['h', 'o', 's', 't']) := by decide
  apply keeps_profiles
  refine ⟨fun _ _ _ => ⟨⟨not_nested hcut (by decide) (by decide), fun _ h => (nomatch h), fun _ h => (nomatch h)⟩, ?_⟩,
    fun _ _ h => ?_, trivial, trivial⟩
  · simp only [Whole, hsecret]
    exact .inr ⟨trivial, trivial⟩
  · exact absurd (hkept.symm.trans (h rfl)) (by decide)

/-- The keychain takes the password, and then the file cannot be saved. -/
theorem failed_save_leaves_secret : ¬ ∀ replaced keychain inputs, KeepsProfiles replaced (.init keychain) inputs := by
  intro h
  have hunchanged := (h (fun _ => []) (fun _ => none) [.call (.upsert homeProfile "") { save := some "disk full" }]).unchanged []
    (.upsert homeProfile "") { save := some "disk full" } (List.prefix_refl _) (by decide)
  have hentry := congrFun hunchanged.2 "home"
  revert hentry
  decide

end Profiles
