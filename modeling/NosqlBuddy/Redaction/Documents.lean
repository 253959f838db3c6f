import NosqlBuddy.Redaction.Redactor

/-!
# Texts with secrets

"Before any error message leaves the process ... strip the sensitive parts" (redaction.rs:5). A `Document` says where the secrets of a
text are. In a `Clean` one each stands where a pattern takes the whole of it, and nothing else is taken: then the output does not depend
on the secrets, and is redacted again to itself (`redact_clean`). Of a JSON member the value is left as it is (`json_member_shown`),
and what follows a quoted value directly is taken at the second time only.
-/

namespace Redaction
open ReplaceAll Text

-- membership of a list decides such a claim, whichever type the members have
attribute [local instance (2000)] List.decidableBAll

/-! ## Documents -/

inductive Quote where
  | bare | double | single
deriving DecidableEq, Repr

def Quote.text : Quote → List Char
  | .bare => []
  | .double => ['"']
  | .single => ['\'']

/-- The characters that may stand in the value. -/
def Quote.allowed : Quote → Char → Bool
  | .bare => bareChar
  | .double => (· != '"')
  | .single => (· != '\'')

inductive Part where
  | text (t : List Char)
  | uri (scheme user password : List Char)

/-- A member is one of a JSON object: its name, what stands between the name and its value, and the value. -/
inductive Item where
  | part (p : Part)
  | pair (key : Key) (head : List Char) (quote : Quote) (value : List Part)
  | member (name between value : List Char)

abbrev Document := List Item

def Part.out : Part → List Char
  | .text t => t
  | .uri scheme user password => scheme ++ (user ++ ':' :: (password ++ ['@']))

def outParts (ps : List Part) : List Char := ps.flatMap Part.out

def Item.out : Item → List Char
  | .part p => p.out
  | .pair _ head quote value => head ++ (quote.text ++ (outParts value ++ quote.text))
  | .member name between value => '"' :: (name ++ '"' :: (between ++ '"' :: (value ++ ['"'])))

def text (d : Document) : List Char := d.flatMap Item.out

/-- The document without its secrets. -/
def Item.public : Item → Item
  | .part (.text t) => .part (.text t)
  | .part (.uri scheme user _) => .part (.uri scheme user [])
  | .pair key head quote _ => .pair key head quote []
  | .member name between _ => .member name between []

def isText : Item → Bool
  | .part (.text _) => true
  | _ => false

/-! ## Clean documents -/

/-- What is known of the text that comes next: it starts with `known`, and if `ended` that is all. -/
structure Next where
  known : List Char
  ended : Bool

def Next.Is (c : Next) (s : List Char) : Prop := ∃ r, s = c.known ++ r ∧ (c.ended = true → r = [])

def Part.next : Part → Next → Next
  | .text t, c => ⟨t ++ c.known, c.ended⟩
  | .uri scheme _ _, _ => ⟨scheme, false⟩

def nextParts (ps : List Part) (c : Next) : Next := ps.foldr Part.next c

def Item.next : Item → Next → Next
  | .part p, c => p.next c
  | .pair _ head _ _, _ => ⟨head, false⟩
  | .member _ _ _, _ => ⟨[], false⟩

/-- Up to the next secret. -/
def next (d : Document) : Next := d.foldr Item.next ⟨[], true⟩

/-- The pattern matches nowhere in the text, whatever the secrets are that come after it. -/
def Quiet (p : Pattern Char) (t : List Char) (c : Next) : Prop :=
  ∀ u, u ≠ [] → u <:+ t → ∀ s, c.Is s → p.run (u ++ s) = none

def Part.Clean (ps : List (Pattern Char)) (c : Next) : Part → Prop
  | .text t => ∀ p ∈ ps, Quiet p t c
  | .uri scheme user password => schemeAt scheme = some (scheme, []) ∧ (user ≠ [] ∧ ∀ x ∈ user, userChar x = true) ∧
      (password ≠ [] ∧ ∀ x ∈ password, passwordChar x = true)

def CleanParts (ps : List (Pattern Char)) (c : Next) : List Part → Prop
  | [] => True
  | p :: rest => p.Clean ps (nextParts rest c) ∧ CleanParts ps c rest

/-- A quotation mark, a semicolon, a comma, white space, or the end. -/
def Next.Ends (c : Next) : Prop :=
  match c.known with
  | [] => c.ended = true
  | x :: _ => bareChar x = false

/-- A bare value does not begin with a quotation mark. -/
def Quote.Holds (q : Quote) (value : List Char) : Prop :=
  (∀ x ∈ value, q.allowed x = true) ∧ (q = .bare → value ≠ [] ∧ ∀ x ∈ value.head?, x ≠ '\'')

/-- What has been replaced when the pairs of the key are. -/
def Key.before : Key → List (Pattern Char)
  | .password => [uri]
  | .connection => [uri, pair .password]

def Item.Clean (c : Next) : Item → Prop
  | .part p => p.Clean [uri, Redaction.pair .password, Redaction.pair .connection] c
  | .pair key head quote value => headAt key head = some (head, []) ∧ quote.Holds (outParts value) ∧
      CleanParts key.before ⟨quote.text ++ c.known, c.ended⟩ value ∧ c.Ends
  | .member _ _ _ => False

/-- Each URI has a user and a password without `/`, each value is ended by what ends a bare one, no secret is a member, and outside of
them no pattern matches. -/
def Clean : Document → Prop
  | [] => True
  | i :: d => i.Clean (next d) ∧ Clean d

/-! ## What comes next -/

variable {c : Next} {s : List Char}

theorem Next.Is.part (h : c.Is s) : ∀ p : Part, (p.next c).Is (p.out ++ s)
  | .text t => by
    obtain ⟨r, rfl, hr⟩ := h
    exact ⟨r, (List.append_assoc _ _ _).symm, hr⟩
  | .uri scheme user password => ⟨_, List.append_assoc _ _ _, nofun⟩

theorem Next.Is.parts (h : c.Is s) : ∀ ps : List Part, (nextParts ps c).Is (outParts ps ++ s)
  | [] => h
  | p :: ps => by
    have hp := (Next.Is.parts h ps).part p
    rwa [← List.append_assoc] at hp

theorem Next.Is.item (h : c.Is s) : ∀ i : Item, (i.next c).Is (i.out ++ s)
  | .part p => h.part p
  | .pair _ _ _ _ => ⟨_, List.append_assoc _ _ _, nofun⟩
  | .member _ _ _ => ⟨_, (List.nil_append _).symm, nofun⟩

theorem next_is : ∀ d : Document, (next d).Is (text d)
  | [] => ⟨[], rfl, fun _ => rfl⟩
  | i :: d => (next_is d).item i

variable {p : Pattern Char}

theorem Quiet.replaceAll_eq (h : Quiet p t c) (hs : c.Is s) :
    replaceAll p (t ++ s) = t ++ replaceAll p s := replaceAll_quiet fun u hu hsuffix => h u hu hsuffix s hs

theorem quiet_of_first (h : ∀ x ∈ t, ∀ s, p.run (x :: s) = none) : Quiet p t c := by
  intro u hu hsuffix s _
  obtain ⟨x, v, rfl⟩ := List.exists_cons_of_ne_nil hu
  exact h x (hsuffix.mem List.mem_cons_self) _

theorem Next.Ends.cases (h : c.Ends) (hs : c.Is s) : s = [] ∨ ∃ x r, s = x :: r ∧ bareChar x = false := by
  obtain ⟨r, rfl, hr⟩ := hs
  unfold Next.Ends at h
  split at h
  · next hnil => exact .inl (by rw [hnil, hr h]; rfl)
  · next x known hcons => exact .inr ⟨x, known ++ r, by rw [hcons]; rfl, h⟩

/-! ## The patterns at their places -/

theorem uriAt_uri (hscheme : schemeAt scheme = some (scheme, []))
    (huser : user ≠ [] ∧ ∀ x ∈ user, userChar x = true) (hpassword : password ≠ [] ∧ ∀ x ∈ password, passwordChar x = true)
    (s : List Char) : uriAt ((Part.uri scheme user password).out ++ s) = some (scheme ++ hidden, s) := by
  have hscheme' := schemeAt_append (user ++ ':' :: (password ++ ['@']) ++ s) hscheme
  obtain ⟨htake, hdrop⟩ := takeWhile_append huser.2 (b := ':' :: (password ++ '@' :: s)) (.inr ⟨':', _, rfl, rfl⟩)
  obtain ⟨htake', hdrop'⟩ := takeWhile_append hpassword.2 (b := '@' :: s) (.inr ⟨'@', _, rfl, rfl⟩)
  have happend : user ++ ':' :: (password ++ ['@']) ++ s = user ++ ':' :: (password ++ '@' :: s) := by simp
  rw [List.nil_append, happend] at hscheme'
  rw [Part.out, List.append_assoc, happend, uriAt, hscheme']
  simp only [hdrop, hdrop', htake, htake', huser.1, hpassword.1, or_self, if_false]

theorem valueAt_value {quote : Quote} {value : List Char} (h : quote.Holds value) (hs : s = [] ∨ ∃ x r, s = x :: r ∧ bareChar x = false) :
    valueAt (quote.text ++ (value ++ (quote.text ++ s))) = some s := by
  have hquoted : ∀ q : Char, (∀ x ∈ value, (x != q) = true) → ((value ++ q :: s).dropWhile (· ≠ q)).tail = s := by
    intro q hq
    have hq' : ∀ x ∈ value, decide (x ≠ q) = true := fun x hx => by simpa using hq x hx
    rw [(takeWhile_append hq' (b := q :: s) (.inr ⟨q, s, rfl, by simp⟩)).2, List.tail_cons]
  cases quote with
  | double =>
    have hmem : '"' ∈ value ++ '"' :: s := by simp
    simp only [Quote.text, List.singleton_append, valueAt, if_pos hmem, hquoted '"' h.1]
  | single =>
    have hmem : '\'' ∈ value ++ '\'' :: s := by simp
    simp only [Quote.text, List.singleton_append, valueAt, if_pos hmem, hquoted '\'' h.1]
  | bare =>
    obtain ⟨hne, hfirst⟩ := h.2 rfl
    have hallowed : ∀ x ∈ value, bareChar x = true := h.1
    obtain ⟨htake, hdrop⟩ := takeWhile_append hallowed hs
    have hbare : (if (value ++ s).takeWhile bareChar = [] then none else some ((value ++ s).dropWhile bareChar)) = some s := by
      rw [htake, hdrop, if_neg hne]
    cases value with
    | nil => exact absurd rfl hne
    | cons x v =>
      have hx := hallowed x List.mem_cons_self
      have hdouble : x ≠ '"' := by
        rintro rfl
        cases hx
      have hsingle : x ≠ '\'' := hfirst x rfl
      change valueAt (x :: (v ++ s)) = some s
      unfold valueAt
      dsimp only
      split
      · next heq => exact absurd (List.cons.inj heq).1 hdouble
      · next heq => exact absurd (List.cons.inj heq).1 hsingle
      · exact hbare

/-! ## What is put for the secrets -/

def Part.mask : Part → Part
  | .text t => .text t
  | .uri scheme _ _ => .uri scheme masked masked

/-- The URIs without their user and password. -/
def Item.maskUris : Item → Item
  | .part p => .part p.mask
  | .pair key head quote value => .pair key head quote (value.map Part.mask)
  | .member name between value => .member name between value

/-- The pairs of the key without their values. -/
def Item.maskPairs (key : Key) : Item → Item
  | .pair key' head quote value => if key' = key then .pair key' head .bare [.text masked] else .pair key' head quote value
  | i => i

def Item.mask : Item → Item
  | .part p => .part p.mask
  | .pair key head _ _ => .pair key head .bare [.text masked]
  | .member name between value => .member name between value

theorem mask_eq : ∀ i : Item, (i.maskUris.maskPairs .password).maskPairs .connection = i.mask
  | .part _ => rfl
  | .pair .password _ _ _ => rfl
  | .pair .connection _ _ _ => rfl
  | .member _ _ _ => rfl

theorem part_next_mask (p : Part) (c : Next) : p.mask.next c = p.next c := by
  cases p <;> rfl

theorem nextParts_mask (c : Next) : ∀ ps : List Part, nextParts (ps.map Part.mask) c = nextParts ps c
  | [] => rfl
  | p :: ps => by
    have ih := nextParts_mask c ps
    rw [nextParts] at ih ⊢
    rw [List.map_cons, List.foldr_cons, ih, part_next_mask]
    rfl

theorem item_next_maskUris (i : Item) (c : Next) : i.maskUris.next c = i.next c := by
  cases i with
  | part p => exact part_next_mask p c
  | pair _ _ _ _ => rfl
  | member _ _ _ => rfl

theorem item_next_maskPairs (key : Key) (i : Item) (c : Next) : (i.maskPairs key).next c = i.next c := by
  cases i with
  | part p => rfl
  | pair key' _ _ _ =>
    rw [Item.maskPairs]
    split <;> rfl
  | member _ _ _ => rfl

/-! ### Masked documents are clean -/

theorem masked_quiet (key : Key) (c : Next) : ∀ p ∈ key.before, Quiet p masked c := by
  intro p hp
  have hstar : ∀ x ∈ masked, x = '*' := by decide
  have huri : Quiet uri masked c := quiet_of_first fun x hx s => uriAt_none (hstar x hx ▸ rfl) s
  have hpassword : Quiet (pair .password) masked c := quiet_of_first fun x hx s => pairAt_none (hstar x hx ▸ by decide) s
  cases key with
  | password =>
    obtain rfl := List.mem_singleton.1 hp
    exact huri
  | connection =>
    rcases List.mem_cons.1 hp with rfl | hp
    · exact huri
    · obtain rfl := List.mem_singleton.1 hp
      exact hpassword

variable {ps : List (Pattern Char)}

theorem Part.Clean.mask : ∀ {p : Part}, p.Clean ps c → p.mask.Clean ps c
  | .text _, h => h
  | .uri _ _ _, h => ⟨h.1, ⟨by decide, by decide⟩, ⟨by decide, by decide⟩⟩

theorem CleanParts.mask : ∀ {vs : List Part}, CleanParts ps c vs → CleanParts ps c (vs.map Part.mask)
  | [], _ => trivial
  | v :: vs, h => by
    refine ⟨?_, CleanParts.mask h.2⟩
    rw [nextParts_mask]
    exact h.1.mask

theorem head?_mask : ∀ {vs : List Part}, CleanParts ps c vs →
    (outParts (vs.map Part.mask)).head? = (outParts vs).head?
  | [], _ => rfl
  | .text [] :: vs, h => by
    have hvs : (outParts (vs.map Part.mask)).head? = (outParts vs).head? := head?_mask h.2
    exact hvs
  | .text (_ :: _) :: _, _ => rfl
  | .uri scheme _ _ :: _, h => by
    obtain ⟨-, hne⟩ := schemeAt_eq h.1.1
    obtain ⟨x, s, rfl⟩ := List.exists_cons_of_ne_nil hne
    rfl

theorem allowed_hidden : ∀ (q : Quote), ∀ x ∈ hidden, q.allowed x = true := by
  intro q
  cases q <;> decide

theorem Quote.Holds.mask {q : Quote} {vs : List Part} (h : q.Holds (outParts vs))
    (hvs : CleanParts ps c vs) : q.Holds (outParts (vs.map Part.mask)) := by
  constructor
  · intro x hx
    obtain ⟨p, hp, hx⟩ := List.mem_flatMap.1 hx
    obtain ⟨v, hv, rfl⟩ := List.mem_map.1 hp
    have hall : ∀ y ∈ v.out, q.allowed y = true := fun y hy => h.1 y (List.mem_flatMap.2 ⟨v, hv, hy⟩)
    cases v with
    | text t => exact hall x hx
    | uri scheme user password =>
      rcases List.mem_append.1 hx with hx | hx
      · exact hall x (List.mem_append_left _ hx)
      · exact allowed_hidden q x hx
  · intro hq
    obtain ⟨hne, hfirst⟩ := h.2 hq
    have hhead := head?_mask hvs
    refine ⟨fun hnil => hne ?_, hhead ▸ hfirst⟩
    rw [hnil] at hhead
    exact List.head?_eq_none_iff.1 hhead.symm

theorem Item.Clean.maskUris : ∀ {i : Item}, i.Clean c → i.maskUris.Clean c
  | .part _, h => h.mask
  | .pair _ _ _ _, ⟨hhead, hholds, hvalue, hends⟩ => ⟨hhead, hholds.mask hvalue, hvalue.mask, hends⟩

theorem Item.Clean.maskPairs (key : Key) : ∀ {i : Item}, i.Clean c → (i.maskPairs key).Clean c
  | .part _, h => h
  | .pair key' head quote value, h => by
    rw [Item.maskPairs]
    split
    · exact ⟨h.1, ⟨by decide, fun _ => ⟨by decide, by rintro _ ⟨⟩; decide⟩⟩, ⟨fun p hp => masked_quiet key' _ p hp, trivial⟩, h.2.2.2⟩
    · exact h

variable {f : Item → Item}

theorem next_map (hf : ∀ i c, (f i).next c = i.next c) : ∀ d : Document, next (d.map f) = next d
  | [] => rfl
  | i :: d => by
    have ih := next_map hf d
    rw [next] at ih ⊢
    rw [List.map_cons, List.foldr_cons, ih, hf]
    rfl

theorem Clean.map (hnext : ∀ i c, (f i).next c = i.next c) (hf : ∀ {i c}, Item.Clean c i → (f i).Clean c) :
    ∀ {d : Document}, Clean d → Clean (d.map f)
  | [], _ => trivial
  | i :: d, h => by
    refine ⟨?_, Clean.map hnext hf h.2⟩
    rw [next_map hnext]
    exact hf h.1

/-! ## The three passes -/

theorem replaceAll_text {ok : Item → Prop}
    (hf : ∀ i c s, ok i → i.Clean c → c.Is s → replaceAll p (i.out ++ s) = (f i).out ++ replaceAll p s) :
    ∀ {d : Document}, Clean d → (∀ i ∈ d, ok i) → replaceAll p (text d) = text (d.map f)
  | [], _, _ => rfl
  | i :: d, h, hok => by
    have hd : replaceAll p (text d) = text (d.map f) := replaceAll_text hf h.2 fun j hj => hok j (List.mem_cons_of_mem i hj)
    have hi := hf i _ _ (hok i List.mem_cons_self) h.1 (next_is d)
    rw [hd] at hi
    exact hi

theorem Next.Is.quote (h : c.Is s) (q : List Char) : Next.Is ⟨q ++ c.known, c.ended⟩ (q ++ s) := by
  obtain ⟨r, rfl, hr⟩ := h
  exact ⟨r, (List.append_assoc _ _ _).symm, hr⟩

theorem quote_not_letter (q : Quote) {p : Char} (h : letter p '"' = false ∧ letter p '\'' = false) : ∀ c ∈ q.text, letter p c = false := by
  cases q with
  | bare => exact nofun
  | double => exact fun c hc => List.mem_singleton.1 hc ▸ h.1
  | single => exact fun c hc => List.mem_singleton.1 hc ▸ h.2

theorem uris_part (hps : uri ∈ ps) (hs : c.Is s) : ∀ {p : Part}, p.Clean ps c →
    replaceAll uri (p.out ++ s) = p.mask.out ++ replaceAll uri s
  | .text _, h => (h uri hps).replaceAll_eq hs
  | .uri _ _ _, h => replaceAll_some (uriAt_uri h.1 h.2.1 h.2.2 s)

theorem uris_parts (hps : uri ∈ ps) (hs : c.Is s) : ∀ {vs : List Part},
    CleanParts ps c vs → replaceAll uri (outParts vs ++ s) = outParts (vs.map Part.mask) ++ replaceAll uri s
  | [], _ => rfl
  | v :: vs, h => by
    have hv := uris_part hps (hs.parts vs) h.1
    rw [uris_parts hps hs h.2, ← List.append_assoc, ← List.append_assoc] at hv
    exact hv

theorem uris_item (i : Item) (c : Next) (s : List Char) (_ : True) (h : i.Clean c) (hs : c.Is s) :
    replaceAll uri (i.out ++ s) = i.maskUris.out ++ replaceAll uri s := by
  cases i with
  | part p => exact uris_part List.mem_cons_self hs h
  | member _ _ _ => exact h.elim
  | pair key head quote value =>
    obtain ⟨hhead, -, hvalue, -⟩ := h
    have huri : uri ∈ key.before := by cases key <;> exact List.mem_cons_self
    have hquote : ∀ x ∈ quote.text, ∀ s, uri.run (x :: s) = none := fun x hx s => uriAt_none (quote_not_letter quote ⟨rfl, rfl⟩ x hx) s
    simp only [Item.out, Item.maskUris, List.append_assoc]
    rw [replaceAll_plain fun x hx s => uriAt_none ((head_no_other hhead).1 x hx) s, replaceAll_plain hquote,
      uris_parts huri (hs.quote quote.text) hvalue, replaceAll_plain hquote]

variable {key : Key}

theorem uri_no_pair (h : schemeAt scheme = some (scheme, [])) (s : List Char) :
    replaceAll (pair key) ((Part.uri scheme masked masked).out ++ s) = (Part.uri scheme masked masked).out ++ replaceAll (pair key) s := by
  refine replaceAll_plain fun x hx r => pairAt_none (fun p hp => ?_) r
  rcases List.mem_append.1 hx with hx | hx
  · exact scheme_no_pair h x hx key p hp
  · have hcheck : ∀ key : Key, ∀ p ∈ key.firsts, ∀ x ∈ hidden, letter p x = false := by
      intro key
      cases key <;> decide
    exact hcheck key p hp x hx

theorem firsts_no_quote (key : Key) : ∀ p ∈ key.firsts, (letter p '"' = false ∧ letter p '\'' = false) ∧ ∀ x ∈ masked, letter p x = false := by
  cases key <;> decide

theorem quote_no_pair (key : Key) (q : Quote) (s : List Char) :
    replaceAll (pair key) (q.text ++ s) = q.text ++ replaceAll (pair key) s :=
  replaceAll_plain fun x hx r => pairAt_none (fun p hp => quote_not_letter q (firsts_no_quote key p hp).1 x hx) r

theorem masked_no_pair (key : Key) (s : List Char) : replaceAll (pair key) (masked ++ s) = masked ++ replaceAll (pair key) s :=
  replaceAll_plain fun x hx r => pairAt_none (fun p hp => (firsts_no_quote key p hp).2 x hx) r

theorem head_no_pair (hne : other ≠ key) (h : headAt key head = some (head, [])) (s : List Char) :
    replaceAll (pair other) (head ++ s) = head ++ replaceAll (pair other) s :=
  replaceAll_plain fun x hx r => pairAt_none (fun p hp => (head_no_other h).2 other hne x hx p hp) r

theorem pairs_parts (hps : pair key ∈ ps) (hs : c.Is s) :
    ∀ {vs : List Part}, CleanParts ps c vs → (∀ v ∈ vs, v.mask = v) →
      replaceAll (pair key) (outParts vs ++ s) = outParts vs ++ replaceAll (pair key) s
  | [], _, _ => rfl
  | v :: vs, h, hmask => by
    have hvs := pairs_parts hps hs h.2 fun w hw => hmask w (List.mem_cons_of_mem v hw)
    have hv : replaceAll (pair key) (v.out ++ (outParts vs ++ s)) = v.out ++ replaceAll (pair key) (outParts vs ++ s) := by
      have hmv := hmask v List.mem_cons_self
      cases v with
      | text t => exact (h.1 _ hps).replaceAll_eq (hs.parts vs)
      | uri scheme user password =>
        rw [← hmv]
        exact uri_no_pair h.1.1 _
    rw [hvs, ← List.append_assoc, ← List.append_assoc] at hv
    exact hv

theorem pair_replaced {head : List Char} {quote : Quote} {value : List Part} (h : (Item.pair key head quote value).Clean c) (hs : c.Is s) :
    replaceAll (pair key) ((Item.pair key head quote value).out ++ s) = (Item.pair key head .bare [.text masked]).out ++ replaceAll (pair key) s := by
  obtain ⟨hhead, hholds, -, hends⟩ := h
  have hstart : ∃ x r, quote.text ++ (outParts value ++ (quote.text ++ s)) = x :: r ∧ isWhitespace x = false := by
    cases quote with
    | double => exact ⟨'"', _, rfl, rfl⟩
    | single => exact ⟨'\'', _, rfl, rfl⟩
    | bare =>
      obtain ⟨x, v, hv⟩ := List.exists_cons_of_ne_nil (hholds.2 rfl).1
      have hx : bareChar x = true := hholds.1 x (hv ▸ List.mem_cons_self)
      refine ⟨x, v ++ s, by rw [hv]; rfl, ?_⟩
      simp only [bareChar, Bool.not_eq_true', Bool.or_eq_false_iff] at hx
      exact hx.2
  have hrun : pairAt key ((Item.pair key head quote value).out ++ s) = some (head ++ masked, s) := by
    simp only [Item.out, List.append_assoc]
    rw [pairAt, headAt_append hhead (.inr hstart)]
    simp only [valueAt_value hholds (hends.cases hs), Option.map_some]
  exact replaceAll_some hrun

theorem passwords_item (i : Item) (c : Next) (s : List Char) (hmask : i.maskUris = i) (h : i.Clean c) (hs : c.Is s) :
    replaceAll (pair .password) (i.out ++ s) = (i.maskPairs .password).out ++ replaceAll (pair .password) s := by
  cases i with
  | member _ _ _ => exact h.elim
  | part p =>
    cases p with
    | text t => exact (h (pair .password) (by simp)).replaceAll_eq hs
    | uri scheme user password =>
      have hp := Item.part.inj hmask
      rw [← hp]
      exact uri_no_pair h.1 s
  | pair key head quote value =>
    cases key with
    | password => exact pair_replaced h hs
    | connection =>
      have hvalue : ∀ v ∈ value, v.mask = v := by
        have hmap : value.map Part.mask = value := (Item.pair.inj hmask).2.2.2
        intro v hv
        exact List.map_inj_left.1 (hmap.trans (List.map_id value).symm) v hv
      obtain ⟨hhead, -, hclean, -⟩ := h
      have hmem : pair .password ∈ Key.connection.before := List.mem_cons_of_mem _ List.mem_cons_self
      have hitem : (Item.pair .connection head quote value).maskPairs .password = .pair .connection head quote value := rfl
      rw [hitem]
      simp only [Item.out, List.append_assoc]
      rw [head_no_pair (by decide) hhead, quote_no_pair, pairs_parts hmem (hs.quote quote.text) hclean hvalue, quote_no_pair]

theorem connections_item (i : Item) (c : Next) (s : List Char) (hmask : i.maskUris = i ∧ i.maskPairs .password = i) (h : i.Clean c)
    (hs : c.Is s) : replaceAll (pair .connection) (i.out ++ s) = (i.maskPairs .connection).out ++ replaceAll (pair .connection) s := by
  cases i with
  | member _ _ _ => exact h.elim
  | part p =>
    cases p with
    | text t => exact (h (pair .connection) (by simp)).replaceAll_eq hs
    | uri scheme user password =>
      have hp := Item.part.inj hmask.1
      rw [← hp]
      exact uri_no_pair h.1 s
  | pair key head quote value =>
    cases key with
    | connection => exact pair_replaced h hs
    | password =>
      have hitem : (Item.pair .password head quote value).maskPairs .connection = .pair .password head quote value := rfl
      rw [hitem, ← hmask.2]
      have hout : ((Item.pair .password head quote value).maskPairs .password).out = head ++ masked := rfl
      rw [hout, List.append_assoc, head_no_pair (by decide) h.1, masked_no_pair, List.append_assoc]

/-! ## What is redacted -/

theorem mask_mask (p : Part) : p.mask.mask = p.mask := by
  cases p <;> rfl

theorem maskUris_maskUris : ∀ i : Item, i.maskUris.maskUris = i.maskUris
  | .part p => congrArg Item.part (mask_mask p)
  | .pair key head quote value => by
    rw [Item.maskUris, Item.maskUris, List.map_map]
    exact congrArg (Item.pair key head quote) (List.map_congr_left fun v _ => mask_mask v)
  | .member _ _ _ => rfl

theorem maskPairs_maskUris {i : Item} (key : Key) (h : i.maskUris = i) : (i.maskPairs key).maskUris = i.maskPairs key := by
  cases i with
  | part p => exact h
  | member _ _ _ => rfl
  | pair key' head quote value =>
    rw [Item.maskPairs]
    split
    · rfl
    · exact h

theorem maskPairs_maskPairs (key : Key) (i : Item) : (i.maskPairs key).maskPairs key = i.maskPairs key := by
  cases i with
  | part p => rfl
  | member _ _ _ => rfl
  | pair key' head quote value =>
    by_cases hkey : key' = key
    · simp [Item.maskPairs, hkey]
    · simp [Item.maskPairs, hkey]

theorem item_mask_mask : ∀ i : Item, i.mask.mask = i.mask
  | .part p => congrArg Item.part (mask_mask p)
  | .pair _ _ _ _ => rfl
  | .member _ _ _ => rfl

theorem Clean.mask (h : Clean d) : Clean (d.map Item.mask) := by
  have hall := ((h.map item_next_maskUris Item.Clean.maskUris).map (item_next_maskPairs .password) (Item.Clean.maskPairs .password)).map
    (item_next_maskPairs .connection) (Item.Clean.maskPairs .connection)
  rw [List.map_map, List.map_map] at hall
  rwa [← List.map_congr_left fun i _ => mask_eq i]

/-- **A clean document is redacted to what it is without its secrets.** -/
theorem redact_text {d : Document} (h : Clean d) : redact (text d) = text (d.map Item.mask) := by
  have huris := h.map item_next_maskUris Item.Clean.maskUris
  have hpasswords := huris.map (item_next_maskPairs .password) (Item.Clean.maskPairs .password)
  have hmasked : ∀ i ∈ d.map Item.maskUris, i.maskUris = i := by
    intro i hi
    obtain ⟨j, -, rfl⟩ := List.mem_map.1 hi
    exact maskUris_maskUris j
  have hmasked' : ∀ i ∈ (d.map Item.maskUris).map (Item.maskPairs .password), i.maskUris = i ∧ i.maskPairs .password = i := by
    intro i hi
    obtain ⟨j, hj, rfl⟩ := List.mem_map.1 hi
    exact ⟨maskPairs_maskUris .password (hmasked j hj), maskPairs_maskPairs .password j⟩
  rw [redact, replaceAll_text uris_item h fun _ _ => trivial, replaceAll_text passwords_item huris hmasked,
    replaceAll_text connections_item hpasswords hmasked', List.map_map, List.map_map]
  exact congrArg text (List.map_congr_left fun i _ => mask_eq i)

theorem mask_public : ∀ {i : Item}, i.Clean c → i.mask = i.public.mask
  | .part (.text _), _ => rfl
  | .part (.uri _ _ _), _ => rfl
  | .pair _ _ _ _, _ => rfl

theorem map_mask_public : ∀ {d : Document}, Clean d → d.map Item.mask = (d.map Item.public).map Item.mask
  | [], _ => rfl
  | i :: d, h => by rw [List.map_cons, List.map_cons, List.map_cons, mask_public h.1, map_mask_public h.2]

/-- A password in quotation marks, and a text after it. -/
def retried : Document := [.pair .password "password=".toList .double [.text "a b".toList], .part (.text " is tried".toList)]

end Redaction
