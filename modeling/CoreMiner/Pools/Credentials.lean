/-
  CoreMiner.Pools.Credentials — user, worker and password in a pool URI
  (`docs/STRATUM.md`: special characters; `PoolURI.cpp`).

  Two ways are offered to write a character that would be taken for a separator.

  (1) Percent-encoding. What is encoded holds no separator, so the URI can be cut in one way
  only, and decoding comes after the cut: the credentials come back (`encoded_credentials`).

  (2) Backticks. What they enclose is exchanged for the tokens `_0`, `_1`, … and back, one
  after the other over the whole text. However many blocks the authority has, as long as none
  is equal to a separator between them or to the token of a block exchanged before it, they
  come back; but they are percent-decoded afterwards, all the same, so they are taken
  literally exactly if that changes nothing (`quoted_credentials_iff`). With a block that is a
  separator or such a token the wrong piece is exchanged (`separator_taken`, `token_taken`).
-/

import CoreMiner.Pools.Uri
import Mathlib.Data.Bool.AllAny

namespace CoreMiner.Pools

open DevCore Lib Text

variable {fromString : List Char → Option Address}

/-! ## A URI with credentials -/

structure Endpoint where
  host : List Char
  port : List Char
  host_ne : host ≠ []
  host_chars : ∀ c ∈ host, c ∉ ['@', '/', '\x60', '\n', '\r']
  port_length : 1 ≤ port.length ∧ port.length ≤ 5
  port_digits : port.all Char.isDigit = true
  port_lt : Digits.value 10 (port.map fun c => c.toNat - '0'.toNat) < 65536

namespace Endpoint

def text (e : Endpoint) : List Char := e.host ++ ':' :: e.port

theorem not_mem_port {e : Endpoint} {c : Char} (h : c.isDigit = false) : c ∉ e.port := by
  intro hc
  have := List.all_eq_true.mp e.port_digits c hc
  rw [h] at this
  cases this

theorem not_mem_text {e : Endpoint} {c : Char} (h : c ∈ ['@', '/', '\x60', '\n', '\r']) : c ∉ e.text := by
  have hdigit : c.isDigit = false ∧ c ≠ ':' := by
    simp only [List.mem_cons, List.not_mem_nil, or_false] at h
    rcases h with rfl | rfl | rfl | rfl | rfl <;> decide
  rw [text, List.mem_append, List.mem_cons]
  rintro (hc | hc | hc)
  · exact e.host_chars c hc h
  · exact hdigit.2 hc
  · exact not_mem_port hdigit.1 hc

theorem toLower_port (e : Endpoint) : e.port.map Char.toLower = e.port := by
  have hdigit {c : Char} (h : c.isDigit = true) : c.toLower = c := by
    have hupper : ¬ (c.val ≥ 'A'.val ∧ c.val ≤ 'Z'.val) := by
      intro hu
      rw [Char.isDigit, Bool.and_eq_true, decide_eq_true_iff, decide_eq_true_iff] at h
      have hle : 'A'.val ≤ '9'.val := UInt32.le_trans hu.1 h.2
      exact absurd hle (by decide)
    exact dif_neg hupper
  exact (List.map_congr_left fun c hc => hdigit (List.all_eq_true.mp e.port_digits c hc)).trans (List.map_id _)

end Endpoint

def sampleEndpoint : Endpoint where
  host := "pool".toList
  port := "8008".toList
  host_ne := by decide
  host_chars := List.all_iff_forall_prop.mp (by decide)
  port_length := by decide
  port_digits := by decide
  port_lt := by decide

/-- What may stand behind the endpoint: nothing, or a slash and then any line without an at sign. -/
structure Tail where
  text : List Char
  slash : ∀ c ∈ text.head?, c = '/'
  chars : ∀ c ∈ text, c ∉ ['@', '\n', '\r']

def Tail.none : Tail := ⟨[], by simp, by simp⟩

def uriText (scheme : String) (userinfo : List Char) (e : Endpoint) : List Char :=
  scheme.toList ++ ':' :: '/' :: '/' :: (userinfo ++ '@' :: e.text)

theorem scheme_facts {scheme : String} (h : scheme ∈ schemes.map Prod.fst) : scheme.toList ≠ [] ∧
    (∀ c ∈ scheme.toList, isSchemeChar c = true) ∧ scheme.toList.map Char.toLower = scheme.toList ∧
    (attributes? scheme.toList).isSome = true := by
  rw [← List.all_eq_true]
  revert scheme
  decide +kernel

section

variable (userinfo : List Char) (e : Endpoint) (rest : Tail)

def authorityText : List Char := userinfo ++ '@' :: (e.text ++ rest.text)

theorem usrUrl_text : usrUrl (authorityText userinfo e rest) = (userinfo, e.text ++ rest.text) := by
  have hat : '@' ∉ e.text ++ rest.text := by
    rw [List.mem_append, not_or]
    exact ⟨Endpoint.not_mem_text (by decide), fun h => rest.chars _ h (by decide)⟩
  rw [usrUrl, authorityText, splitLast_append_cons hat]
  rfl

theorem location_text : location (authorityText userinfo e rest) =
    .ok (e.host.map Char.toLower, Digits.value 10 (e.port.map fun c => c.toNat - '0'.toNat)) := by
  have hnoslash : ∀ c ∈ e.text, decide (c ≠ '/') = true := fun c hc =>
    decide_eq_true (ne_of_mem_of_not_mem hc (Endpoint.not_mem_text (by decide)))
  have hslash : (e.text ++ rest.text).takeWhile (· ≠ '/') = e.text := by
    rw [List.takeWhile_append_of_pos hnoslash]
    cases hrest : rest.text with
    | nil => exact List.append_nil _
    | cons c s =>
      have hc : c = '/' := rest.slash c (by rw [hrest]; rfl)
      rw [List.takeWhile_cons_of_neg (by simp [hc]), List.append_nil]
  have hlower : e.text.map Char.toLower = e.host.map Char.toLower ++ ':' :: e.port := by
    rw [Endpoint.text, List.map_append, List.map_cons, e.toLower_port]
    rfl
  rw [location, usrUrl_text, hslash, hlower, hostAndPort, splitLast_append_cons (Endpoint.not_mem_port (by decide))]
  simp only [e.port_length, e.port_digits, lexicalCast, e.port_lt, and_self, if_true]
  rfl

end

theorem not_isLineBreak {s : List Char} (hlf : '\n' ∉ s) (hcr : '\r' ∉ s) : ∀ c ∈ s, isLineBreak c = false := by
  intro c hc
  rw [isLineBreak, Bool.or_eq_false_iff, decide_eq_false_iff_not, decide_eq_false_iff_not]
  exact ⟨ne_of_mem_of_not_mem hc hlf, ne_of_mem_of_not_mem hc hcr⟩

/-- The URI is accepted; what is in the fields is what the userinfo was cut into. -/
theorem construct_uriText {scheme : String} (hscheme : scheme ∈ schemes.map Prod.fst) (hsim : scheme ≠ "simulation")
    {userinfo : List Char} (hne : userinfo ≠ []) (hline : ∀ c ∈ userinfo, isLineBreak c = false) (e : Endpoint)
    (rest : Tail) (sim : Bool) : ∃ u, construct fromString (uriText scheme userinfo e ++ rest.text) sim = .ok u ∧
      u.user = decoded (withoutBackticks (credentials (authorityText userinfo e rest) userinfo).user) ∧
      u.worker = decoded (withoutBackticks (credentials (authorityText userinfo e rest) userinfo).worker) ∧
      u.password = decoded (withoutBackticks (credentials (authorityText userinfo e rest) userinfo).password) := by
  obtain ⟨hsne, hchars, hlower, hknown⟩ := scheme_facts hscheme
  have hend : ∀ c ∈ authorityText userinfo e rest, isLineBreak c = false := by
    intro c hc
    rw [authorityText, List.mem_append, List.mem_cons, List.mem_append] at hc
    rcases hc with hc | rfl | hc | hc
    · exact hline c hc
    · decide
    · exact not_isLineBreak (Endpoint.not_mem_text (by decide)) (Endpoint.not_mem_text (by decide)) c hc
    · exact not_isLineBreak (fun h => rest.chars _ h (by decide)) (fun h => rest.chars _ h (by decide)) c hc
  have htext : uriText scheme userinfo e ++ rest.text =
      scheme.toList ++ ':' :: '/' :: '/' :: authorityText userinfo e rest := by
    simp [uriText, authorityText]
  have hpasses : Passes (uriText scheme userinfo e ++ rest.text) sim scheme.toList (authorityText userinfo e rest)
      (e.host.map Char.toLower) (Digits.value 10 (e.port.map fun c => c.toNat - '0'.toNat)) := by
    refine ⟨⟨scheme.toList, htext ▸ schAuth_append hsne hchars hend, hlower.symm⟩, ?_, .inr ?_, hknown,
      location_text userinfo e rest, ?_⟩
    · simp [authorityText]
    · exact fun h => hsim (String.toList_inj.mp h)
    · simpa using e.host_ne
  have hlogin : login (authorityText userinfo e rest) = credentials (authorityText userinfo e rest) userinfo := by
    rw [login, usrUrl_text]
    exact if_neg (by simpa using hne)
  refine ⟨_, construct_eq hpasses, ?_, ?_, ?_⟩
  · rw [← hlogin]
    rfl
  · rw [← hlogin]
    rfl
  · rw [← hlogin]
    rfl

def userinfoText (user : List Char) (worker password : Option (List Char)) : List Char :=
  user ++ worker.elim [] ('.' :: ·) ++ password.elim [] (':' :: ·)

/-- The last colon begins the password, and the last dot before it the worker. -/
structure Cuttable (user : List Char) (worker password : Option (List Char)) : Prop where
  password_colon : ∀ p ∈ password, ':' ∉ p
  worker_dot : ∀ w ∈ worker, '.' ∉ w
  user_dot : worker = none → '.' ∉ user
  colon : password = none → ':' ∉ user ∧ ∀ w ∈ worker, ':' ∉ w

/-- Only the dots and the colons count. -/
theorem Cuttable.imp {α : Type} {f g : α → List Char} {user : α} {worker password : Option α}
    (h : Cuttable (f user) (worker.map f) (password.map f))
    (hfg : ∀ x ∈ user :: (worker.toList ++ password.toList), ∀ c ∈ ['.', ':'], c ∉ f x → c ∉ g x) :
    Cuttable (g user) (worker.map g) (password.map g) := by
  have huser := hfg user List.mem_cons_self
  have hworker : ∀ w ∈ worker, ∀ c ∈ ['.', ':'], c ∉ f w → c ∉ g w := fun w hw => hfg w (by simp [Option.mem_def.mp hw])
  have hpassword : ∀ p ∈ password, ∀ c ∈ ['.', ':'], c ∉ f p → c ∉ g p := fun p hp =>
    hfg p (by simp [Option.mem_def.mp hp])
  refine ⟨fun q hq => ?_, fun q hq => ?_, fun hnone => ?_, fun hnone => ⟨?_, fun q hq => ?_⟩⟩
  · obtain ⟨p, hp, rfl⟩ := Option.map_eq_some_iff.mp hq
    exact hpassword p hp _ (by decide) (h.password_colon _ (Option.mem_map_of_mem f hp))
  · obtain ⟨w, hw, rfl⟩ := Option.map_eq_some_iff.mp hq
    exact hworker w hw _ (by decide) (h.worker_dot _ (Option.mem_map_of_mem f hw))
  · exact huser _ (by decide) (h.user_dot (by simpa using hnone))
  · exact huser _ (by decide) (h.colon (by simpa using hnone)).1
  · obtain ⟨w, hw, rfl⟩ := Option.map_eq_some_iff.mp hq
    exact hworker w hw _ (by decide) ((h.colon (by simpa using hnone)).2 _ (Option.mem_map_of_mem f hw))

theorem usrPatterns_text {user : List Char} {worker password : Option (List Char)} (h : Cuttable user worker password) :
    usrPatterns (userinfoText user worker password) =
      { user, worker := worker.getD [], password := password.getD ['X'] } := by
  cases worker with
  | none =>
    cases password with
    | none =>
      simp only [userinfoText, Option.elim_none, List.append_nil, usrPatterns,
        splitLast_of_not_mem (h.colon rfl).1, splitLast_of_not_mem (h.user_dot rfl)]
      rfl
    | some p =>
      simp only [userinfoText, Option.elim_none, Option.elim_some, List.append_nil, usrPatterns,
        splitLast_append_cons (h.password_colon p rfl), splitLast_of_not_mem (h.user_dot rfl)]
      rfl
  | some w =>
    cases password with
    | none =>
      have hno : ':' ∉ user ++ '.' :: w := by
        simp [(h.colon rfl).1, (h.colon rfl).2 w rfl]
      simp only [userinfoText, Option.elim_none, Option.elim_some, List.append_nil, usrPatterns,
        splitLast_of_not_mem hno, splitLast_append_cons (h.worker_dot w rfl)]
      rfl
    | some p =>
      simp only [userinfoText, Option.elim_some, usrPatterns, splitLast_append_cons (h.password_colon p rfl),
        splitLast_append_cons (h.worker_dot w rfl)]
      rfl

/-! ## Percent-encoding -/

def char (b : UInt8) : Char := Char.ofNat b.toNat

def hexChar (upper : Bool) (d : Nat) : Char := if upper then (Nat.digitChar d).toUpper else Nat.digitChar d

section encode

variable (upper : Bool)

/-- Every byte that is neither a letter nor a digit becomes `%hh`. -/
def escape (b : UInt8) : List Char :=
  if (char b).isAlphanum then [char b] else ['%', hexChar upper (b.toNat / 16), hexChar upper (b.toNat % 16)]

def encode (s : List UInt8) : List Char := s.flatMap (escape upper)

theorem readHex_hexChar (h l : Fin 16) : readHex (hexChar upper h) (hexChar upper l) =
    some ((16 * h + l : Nat) : Int) := by
  revert upper h l
  decide +kernel

theorem isAlphanum_hexChar (d : Fin 16) : (hexChar upper d).isAlphanum = true := by
  revert upper d
  decide

theorem charOf_byte (b : UInt8) : charOf (b.toNat : Int) = char b := by
  have hlt : b.toNat < 256 := b.toNat_lt
  rw [charOf, char]
  congr 1
  omega

theorem urlDecode_escape (b : UInt8) (s : List Char) :
    urlDecode (escape upper b ++ s) = (urlDecode s).map (char b :: ·) := by
  rw [escape]
  by_cases halnum : (char b).isAlphanum = true
  · have hpercent : char b ≠ '%' := fun h => absurd halnum (by rw [h]; decide)
    have hplus : char b ≠ '+' := fun h => absurd halnum (by rw [h]; decide)
    rw [if_pos halnum, List.singleton_append]
    conv_lhs => unfold urlDecode
    simp only [if_neg hpercent, if_neg hplus]
  · have hlt : b.toNat < 256 := b.toNat_lt
    have hvalue : 16 * (b.toNat / 16) + b.toNat % 16 = b.toNat := Nat.div_add_mod _ _
    have hread := readHex_hexChar upper ⟨b.toNat / 16, by omega⟩ ⟨b.toNat % 16, by omega⟩
    simp only [hvalue] at hread
    rw [if_neg halnum]
    simp only [List.cons_append, List.nil_append, urlDecode, if_true, hread, charOf_byte]

theorem urlDecode_encode (s : List UInt8) : urlDecode (encode upper s) = some (s.map char) := by
  induction s with
  | nil => rfl
  | cons b s ih =>
    rw [encode, List.flatMap_cons, urlDecode_escape]
    exact congrArg (Option.map (char b :: ·)) ih

variable {upper}

theorem mem_encode {s : List UInt8} {c : Char} (h : c ∈ encode upper s) : c.isAlphanum = true ∨ c = '%' := by
  rw [encode, List.mem_flatMap] at h
  obtain ⟨b, -, hc⟩ := h
  have hlt : b.toNat < 256 := b.toNat_lt
  rw [escape] at hc
  split at hc
  · rw [List.mem_singleton] at hc
    rw [hc]
    exact .inl ‹_›
  · simp only [List.mem_cons, List.not_mem_nil, or_false] at hc
    rcases hc with rfl | rfl | rfl
    · exact .inr rfl
    · exact .inl (isAlphanum_hexChar upper ⟨b.toNat / 16, by omega⟩)
    · exact .inl (isAlphanum_hexChar upper ⟨b.toNat % 16, by omega⟩)

theorem not_mem_encode {c : Char} (h : c.isAlphanum = false ∧ c ≠ '%') (s : List UInt8) : c ∉ encode upper s := by
  intro hc
  rcases mem_encode hc with hc | hc
  · rw [h.1] at hc
    cases hc
  · exact h.2 hc

def encodedInfo (upper : Bool) (user : List UInt8) (worker password : Option (List UInt8)) : List Char :=
  userinfoText (encode upper user) (worker.map (encode upper)) (password.map (encode upper))

theorem not_mem_encodedInfo {c : Char} (h : c.isAlphanum = false ∧ c ≠ '%') (hdot : c ≠ '.') (hcolon : c ≠ ':')
    (user : List UInt8) (worker password : Option (List UInt8)) : c ∉ encodedInfo upper user worker password := by
  have hpart (s : List UInt8) : c ∉ encode upper s := not_mem_encode h s
  cases worker <;> cases password <;> simp [encodedInfo, userinfoText, hpart, hdot, hcolon]

theorem blocksFrom_of_not_mem {s : List Char} (h : '\x60' ∉ s) : blocksFrom none s = [] := by
  induction s with
  | nil => rfl
  | cons c s ih =>
    rw [List.mem_cons, not_or] at h
    rw [blocksFrom, if_neg (Ne.symm h.1), ih h.2]

theorem credentials_plain {authority userinfo : List Char} (h : '\x60' ∉ authority) :
    credentials authority userinfo = usrPatterns userinfo := by
  have hblocks : btickBlocks authority = [] := by
    simp [btickBlocks, blocksFrom_of_not_mem h]
  rw [credentials, hblocks]
  rfl

theorem withoutBackticks_of_not_mem {s : List Char} (h : '\x60' ∉ s) : withoutBackticks s = s := replaceAll_of_not_mem h

theorem decoded_encode (s : List UInt8) : decoded (withoutBackticks (encode upper s)) = s.map char := by
  rw [withoutBackticks_of_not_mem (not_mem_encode (by decide) s), decoded, urlDecode_encode]
  rfl

/-- Percent-encoded credentials come back, with every scheme and every endpoint. -/
theorem encoded_credentials (fromString : List Char → Option Address) {scheme : String}
    (hscheme : scheme ∈ schemes.map Prod.fst) (hsim : scheme ≠ "simulation") (upper : Bool) (user : List UInt8)
    (worker password : Option (List UInt8)) (hne : encodedInfo upper user worker password ≠ []) (e : Endpoint) :
    ∃ u, construct fromString (uriText scheme (encodedInfo upper user worker password) e) false = .ok u ∧
      u.user = user.map char ∧ u.worker = (worker.getD []).map char ∧
      u.password = (password.map (·.map char)).getD ['X'] := by
  have hline : ∀ c ∈ encodedInfo upper user worker password, isLineBreak c = false :=
    not_isLineBreak (not_mem_encodedInfo (by decide) (by decide) (by decide) _ _ _)
      (not_mem_encodedInfo (by decide) (by decide) (by decide) _ _ _)
  obtain ⟨u, hu, huser, hworker, hpassword⟩ :=
    @construct_uriText fromString _ hscheme hsim _ hne hline e .none false
  rw [Tail.none, List.append_nil] at hu
  have hticks : '\x60' ∉ authorityText (encodedInfo upper user worker password) e .none := by
    rw [authorityText, Tail.none, List.append_nil, List.mem_append, List.mem_cons]
    rintro (h | h | h)
    · exact not_mem_encodedInfo (by decide) (by decide) (by decide) _ _ _ h
    · exact absurd h (by decide)
    · exact Endpoint.not_mem_text (by decide) h
  have hpatterns : usrPatterns (encodedInfo upper user worker password) =
      { user := encode upper user, worker := (worker.map (encode upper)).getD [],
        password := (password.map (encode upper)).getD ['X'] } := by
    have hempty : Cuttable [] (worker.map fun _ => []) (password.map fun _ => []) :=
      ⟨by simp +contextual, by simp +contextual, by simp, by simp +contextual⟩
    refine usrPatterns_text (hempty.imp (f := fun _ => []) fun x _ c hc _ => not_mem_encode ?_ x)
    simp only [List.mem_cons, List.not_mem_nil, or_false] at hc
    rcases hc with rfl | rfl <;> decide
  rw [credentials_plain hticks, hpatterns] at huser hworker hpassword
  refine ⟨u, hu, huser.trans (decoded_encode user), hworker.trans ?_, hpassword.trans ?_⟩
  · cases worker with
    | none => rfl
    | some w => exact decoded_encode w
  · cases password with
    | none => rfl
    | some p => exact decoded_encode p

end encode

/-- A worker with every character that needs escaping. -/
theorem escaped_worker : ∃ u,
    construct (fun _ => none) (uriText "stratum" (encodedInfo false [97] (some [46, 58, 64, 96]) none) sampleEndpoint)
    false = .ok u ∧ u.user = ['a'] ∧ u.worker = ".:@`".toList ∧ u.password = ['X'] :=
  encoded_credentials _ (by decide) (by decide) false [97] (some [46, 58, 64, 96]) none (by decide) sampleEndpoint

/-! ## Backticks -/

abbrev tick : List Char → List Char := quoted '\x60'

/-- User, worker or password: blocks in backticks, with separators between them. -/
structure Part where
  first : List Char
  further : List (Char × List Char) := []

namespace Part

def blocks (p : Part) : List (List Char) := p.first :: p.further.map Prod.snd

def separators (p : Part) : List Char := p.further.map Prod.fst

def text (p : Part) : List Char := joined tick p.first p.further

/-- The text without the backticks. -/
def value (p : Part) : List Char := joined id p.first p.further

end Part

/-- A userinfo of such parts, which can be cut in one way. -/
structure Login where
  user : Part
  worker : Option Part := none
  password : Option Part := none
  separators : ∀ p ∈ user :: (worker.toList ++ password.toList), ∀ c ∈ p.separators, c = '.' ∨ c = ':'
  cuttable : Cuttable user.separators (worker.map Part.separators) (password.map Part.separators)

namespace Login

variable (l : Login)

def parts : List Part := l.user :: (l.worker.toList ++ l.password.toList)

def text : List Char := userinfoText l.user.text (l.worker.map Part.text) (l.password.map Part.text)

/-- All blocks behind the first one, each with the separator before it. -/
def further : List (Char × List Char) :=
  l.user.further ++ (l.worker.elim [] fun w => ('.', w.first) :: w.further) ++
    (l.password.elim [] fun p => (':', p.first) :: p.further)

def blocks : List (List Char) := l.user.first :: l.further.map Prod.snd

theorem joined_eq (write : List Char → List Char) : joined write l.user.first l.further =
    userinfoText (joined write l.user.first l.user.further) (l.worker.map fun w => joined write w.first w.further)
      (l.password.map fun p => joined write p.first p.further) := by
  obtain ⟨user, worker, password⟩ := l
  cases worker <;> cases password <;> simp [further, userinfoText, joined_append]

theorem text_eq : l.text = joined tick l.user.first l.further := (l.joined_eq tick).symm

variable {l}

theorem mem_further {p : Part} (hp : p ∈ l.parts) {x : Char × List Char} (hx : x ∈ p.further) : x ∈ l.further := by
  simp only [parts, List.mem_cons, List.mem_append, Option.mem_toList] at hp
  rcases hp with rfl | hp | hp
  · simp [further, hx]
  · simp [further, hp, hx]
  · simp [further, hp, hx]

theorem mem_blocks {p : Part} (hp : p ∈ l.parts) {x : List Char} (hx : x ∈ p.blocks) : x ∈ l.blocks := by
  rcases List.mem_cons.mp hx with rfl | hx
  · simp only [parts, List.mem_cons, List.mem_append, Option.mem_toList] at hp
    rcases hp with rfl | hp | hp
    · exact List.mem_cons_self
    · simp [blocks, further, hp]
    · simp [blocks, further, hp]
  · obtain ⟨y, hy, rfl⟩ := List.mem_map.mp hx
    exact List.mem_cons_of_mem _ (List.mem_map_of_mem (mem_further hp hy))

theorem further_separator {x : Char × List Char} (hx : x ∈ l.further) : x.1 = '.' ∨ x.1 = ':' := by
  have hpart {p : Part} (hp : p ∈ l.parts) (hx : x ∈ p.further) : x.1 = '.' ∨ x.1 = ':' :=
    l.separators p hp x.1 (List.mem_map_of_mem hx)
  simp only [further, List.mem_append] at hx
  rcases hx with (hx | hx) | hx
  · exact hpart List.mem_cons_self hx
  · cases hw : l.worker with
    | none => simp [hw] at hx
    | some w =>
      rw [hw, Option.elim_some] at hx
      rcases List.mem_cons.mp hx with rfl | hx
      · exact .inl rfl
      · exact hpart (by simp [parts, hw]) hx
  · cases hp : l.password with
    | none => simp [hp] at hx
    | some p =>
      rw [hp, Option.elim_some] at hx
      rcases List.mem_cons.mp hx with rfl | hx
      · exact .inr rfl
      · exact hpart (by simp [parts, hp]) hx

end Login

/-! ## Tokens -/

theorem key_chars {c : Char} (h : c ∈ ['\x60', '.', ':']) (i : Nat) : c ∉ key i := by
  rw [key, List.mem_cons, not_or]
  constructor
  · rintro rfl
    exact absurd h (by decide)
  · intro hc
    have hdigit := Nat.isDigit_of_mem_toDigits (by decide) (by decide) hc
    simp only [List.mem_cons, List.not_mem_nil, or_false] at h
    rcases h with rfl | rfl | rfl <;> exact absurd hdigit (by decide)

theorem key_injective : Function.Injective key := by
  intro i j h
  rw [← Nat.ofDigitChars_ten_toDigits (n := i), (List.cons.inj h).2, Nat.ofDigitChars_ten_toDigits]

/-- No block is a separator of the userinfo, or the token of a block that is exchanged before it; the tokens
    are gone through in the order of their texts. -/
structure Clear (l : Login) (blocks : List (List Char)) : Prop where
  separator : ∀ x ∈ l.further, ∀ block ∈ blocks, block ≠ [x.1]
  token : ∀ i < blocks.length, ∀ j < blocks.length, key i < key j → blocks[j]? ≠ some (key i)

structure IsDict (blocks : List (List Char)) (dict : List (List Char × List Char)) : Prop where
  mem : ∀ e, e ∈ dict ↔ ∃ i, blocks[i]? = some e.2 ∧ e.1 = key i
  sorted : (dict.map Prod.fst).Pairwise (· < ·)

theorem btickBlocks_isDict (authority : List Char) :
    IsDict (blocksFrom none authority) (btickBlocks authority) := by
  have hperm : (btickBlocks authority).Perm ((blocksFrom none authority).zipIdx.map fun x => (key x.2, x.1)) :=
    List.perm_insertionSort _ _
  refine ⟨fun e => ?_, ?_⟩
  · rw [hperm.mem_iff, List.mem_map]
    constructor
    · rintro ⟨⟨block, i⟩, hmem, rfl⟩
      exact ⟨i, List.mem_zipIdx_iff_getElem?.mp hmem, rfl⟩
    · rintro ⟨i, hi, hkey⟩
      exact ⟨(e.2, i), List.mem_zipIdx_iff_getElem?.mpr hi, Prod.ext hkey.symm rfl⟩
  · have hkeys : ((blocksFrom none authority).zipIdx.map fun x => (key x.2, x.1)).map Prod.fst =
        (List.range (blocksFrom none authority).length).map key := by
      rw [List.map_map, List.range_eq_range', ← List.zipIdx_map_snd, List.map_map]
      rfl
    have hnodup : ((btickBlocks authority).map Prod.fst).Nodup := by
      rw [(hperm.map Prod.fst).nodup_iff, hkeys]
      exact List.nodup_range.map key_injective
    have hsorted : ((btickBlocks authority).map Prod.fst).Pairwise (· ≤ ·) := by
      rw [List.pairwise_map]
      have : Std.Total fun e e' : List Char × List Char => e.1 ≤ e'.1 := ⟨fun e e' => le_total e.1 e'.1⟩
      have : IsTrans (List Char × List Char) fun e e' => e.1 ≤ e'.1 := ⟨fun _ _ _ => le_trans⟩
      exact List.pairwise_insertionSort _ _
    exact (hsorted.and hnodup).imp fun h => lt_of_le_of_ne h.1 h.2

namespace IsDict

variable {l : Login} {blocks : List (List Char)} {dict : List (List Char × List Char)} (h : IsDict blocks dict)

include h

theorem nodup : (dict.map Prod.fst).Nodup := h.sorted.imp fun hlt => ne_of_lt hlt

theorem has {x : List Char} (hx : x ∈ blocks) : ∃ e ∈ dict, e.2 = x := by
  obtain ⟨i, hi⟩ := List.mem_iff_getElem?.mp hx
  exact ⟨(key i, x), (h.mem _).mpr ⟨i, hi, rfl⟩, rfl⟩

theorem block {e : List Char × List Char} (he : e ∈ dict) : e.2 ∈ blocks := by
  obtain ⟨i, hi, -⟩ := (h.mem e).mp he
  exact List.mem_of_getElem? hi

theorem key_clear {e : List Char × List Char} (he : e ∈ dict) {c : Char} (hc : c ∈ ['\x60', '.', ':']) : c ∉ e.1 := by
  obtain ⟨i, -, hkey⟩ := (h.mem e).mp he
  rw [hkey]
  exact key_chars hc i

theorem clear (hclear : Clear l blocks) : dict.Pairwise fun e e' => e'.2 ≠ e.1 := by
  have hsorted := List.pairwise_map.mp h.sorted
  refine hsorted.imp_of_mem fun {e e'} he he' hlt => ?_
  obtain ⟨i, hi, hkey⟩ := (h.mem e).mp he
  obtain ⟨j, hj, hkey'⟩ := (h.mem e').mp he'
  rw [hkey] at hlt ⊢
  rw [hkey'] at hlt
  intro hblock
  rw [hblock] at hj
  exact hclear.token i (List.getElem?_eq_some_iff.mp hi).1 j (List.getElem?_eq_some_iff.mp hj).1 hlt hj

theorem ticks (htick : ∀ x ∈ blocks, '\x60' ∉ x) : ∀ e ∈ dict, '\x60' ∉ e.1 ∧ '\x60' ∉ e.2 :=
  fun _ he => ⟨h.key_clear he (by decide), htick _ (h.block he)⟩

/-- A block's token has neither separators nor backticks. -/
theorem token_clear (hclear : Clear l blocks) {x : List Char} (hx : x ∈ blocks) {c : Char}
    (hc : c ∈ ['\x60', '.', ':']) : c ∉ token dict x := by
  obtain ⟨e, he, -, htoken⟩ := token_mem (h.has hx) (h.clear hclear)
  rw [htoken]
  exact h.key_clear he hc

end IsDict

theorem blocksFrom_skip {s : List Char} (h : '\x60' ∉ s) (t : List Char) :
    blocksFrom none (s ++ t) = blocksFrom none t := by
  induction s with
  | nil => rfl
  | cons c s ih =>
    rw [List.mem_cons, not_or] at h
    rw [List.cons_append, blocksFrom, if_neg (Ne.symm h.1), ih h.2]

theorem blocksFrom_inside {s : List Char} (h : '\x60' ∉ s) (block t : List Char) :
    blocksFrom (some block) (s ++ '\x60' :: t) = (block ++ s) :: blocksFrom none t := by
  induction s generalizing block with
  | nil => rw [List.nil_append, blocksFrom, if_pos rfl, List.append_nil]
  | cons c s ih =>
    rw [List.mem_cons, not_or] at h
    rw [List.cons_append, blocksFrom, if_neg (Ne.symm h.1), ih h.2, List.append_assoc]
    rfl

theorem not_mem_blocksFrom (s : List Char) (open_ : Option (List Char)) (hopen : ∀ block ∈ open_, '\x60' ∉ block) :
    ∀ block ∈ blocksFrom open_ s, '\x60' ∉ block := by
  induction s generalizing open_ with
  | nil =>
    intro block hblock
    cases open_ <;> cases hblock
  | cons c s ih =>
    cases open_ with
    | none =>
      rw [blocksFrom]
      split
      · exact ih (some []) fun block hblock => by cases hblock; exact List.not_mem_nil
      · exact ih none hopen
    | some b =>
      rw [blocksFrom]
      split
      · intro block hblock
        rcases List.mem_cons.mp hblock with rfl | hblock
        · exact hopen block rfl
        · exact ih none (by simp) block hblock
      · rename_i hc
        refine ih (some (b ++ [c])) fun block hblock => ?_
        cases hblock
        simp [hopen b rfl, Ne.symm hc]

theorem blocksFrom_joined {a : List Char} {l : List (Char × List Char)} (ha : '\x60' ∉ a)
    (hl : ∀ x ∈ l, x.1 ≠ '\x60' ∧ '\x60' ∉ x.2) (t : List Char) :
    blocksFrom none (joined tick a l ++ t) = a :: (l.map Prod.snd ++ blocksFrom none t) := by
  induction l generalizing a with
  | nil =>
    have htext : joined tick a [] ++ t = '\x60' :: (a ++ '\x60' :: t) := by simp [joined, quoted]
    rw [htext, blocksFrom, if_pos rfl, blocksFrom_inside ha]
    rfl
  | cons x l ih =>
    obtain ⟨c, b⟩ := x
    obtain ⟨hc, hb⟩ := hl (c, b) List.mem_cons_self
    have htext : joined tick a ((c, b) :: l) ++ t =
        '\x60' :: (a ++ '\x60' :: ([c] ++ (joined tick b l ++ t))) := by simp [joined, quoted]
    rw [htext, blocksFrom, if_pos rfl, blocksFrom_inside ha, blocksFrom_skip (by simpa using Ne.symm hc),
      ih hb fun x hx => hl x (List.mem_cons_of_mem _ hx)]
    rfl

/-! ## Quoted credentials -/

section ticked

variable {l : Login} {e : Endpoint} {rest : Tail}

def allBlocks (l : Login) (rest : Tail) : List (List Char) := l.blocks ++ blocksFrom none rest.text

theorem separator_ne_tick {x : Char × List Char} (hx : x ∈ l.further) : x.1 ≠ '\x60' := by
  intro h
  rcases Login.further_separator hx with hdot | hcolon
  · exact absurd (hdot.symm.trans h) (by decide)
  · exact absurd (hcolon.symm.trans h) (by decide)

theorem blocksFrom_authority (htick : ∀ x ∈ l.blocks, '\x60' ∉ x) :
    blocksFrom none (authorityText l.text e rest) = allBlocks l rest := by
  have hend : '\x60' ∉ '@' :: e.text := by
    rw [List.mem_cons, not_or]
    exact ⟨by decide, Endpoint.not_mem_text (by decide)⟩
  have hafter := blocksFrom_skip hend rest.text
  rw [List.cons_append] at hafter
  rw [authorityText, Login.text_eq, blocksFrom_joined (htick _ List.mem_cons_self) (fun x hx =>
    ⟨separator_ne_tick hx, htick _ (List.mem_cons_of_mem _ (List.mem_map_of_mem hx))⟩), hafter]
  rfl

variable {dict : List (List Char × List Char)} (hdict : IsDict (allBlocks l rest) dict)
  (hclear : Clear l (allBlocks l rest))

include hdict

theorem dict_ticks (htick : ∀ x ∈ l.blocks, '\x60' ∉ x) : ∀ e ∈ dict, '\x60' ∉ e.1 ∧ '\x60' ∉ e.2 := by
  refine hdict.ticks fun x hx => ?_
  rcases List.mem_append.mp hx with hx | hx
  · exact htick x hx
  · exact not_mem_blocksFrom _ none (by simp) x hx

include hclear

theorem foldl_replaceAll_text (htick : ∀ x ∈ l.blocks, '\x60' ∉ x) :
    dict.foldl (fun s e => replaceAll (tick e.2) (tick e.1) s) l.text =
      joined (fun x => tick (token dict x)) l.user.first l.further := by
  rw [l.text_eq]
  refine foldl_replaceAll_joined (dict_ticks hdict htick) (fun x hx => ⟨separator_ne_tick hx, fun e he => ?_⟩) htick
  exact (hclear.separator x hx e.2 (hdict.block he)).symm

theorem not_mem_tokens {c : Char} (hc : c ∈ ['.', ':']) {p : Part} (hp : p ∈ l.parts) (hseparators : c ∉ p.separators) :
    c ∉ joined (fun x => tick (token dict x)) p.first p.further := by
  have hne : c ≠ '\x60' := ne_of_mem_of_not_mem hc (by decide)
  refine not_mem_joined hseparators fun x hx => ?_
  have hx : x ∈ allBlocks l rest := List.mem_append_left _ (Login.mem_blocks hp hx)
  simp [quoted, hne, hdict.token_clear hclear hx (List.mem_cons_of_mem _ hc)]

/-- The tokens have no separators, so that the text is cut between the parts. -/
theorem cuttable_tokens : Cuttable (joined (fun x => tick (token dict x)) l.user.first l.user.further)
    (l.worker.map fun w => joined (fun x => tick (token dict x)) w.first w.further)
    (l.password.map fun p => joined (fun x => tick (token dict x)) p.first p.further) :=
  l.cuttable.imp fun _ hp _ hc => not_mem_tokens hdict hclear hc hp

theorem restore_part (htick : ∀ x ∈ l.blocks, '\x60' ∉ x) {p : Part} (hp : p ∈ l.parts) :
    restore '\x60' dict (joined (fun x => tick (token dict x)) p.first p.further) = p.value := by
  refine restore_tokens (dict_ticks hdict htick) hdict.nodup (hdict.clear hclear) (fun x hx => ?_) fun x hx =>
    hdict.has (List.mem_append_left _ (Login.mem_blocks hp hx))
  have hmem := Login.mem_further hp hx
  refine ⟨separator_ne_tick hmem, fun e he => hdict.key_clear he ?_⟩
  rcases Login.further_separator hmem with h | h <;> rw [h] <;> decide

omit hdict in
/-- The parts are found again, as they were. -/
theorem credentials_ticked (htick : ∀ x ∈ l.blocks, '\x60' ∉ x) :
    credentials (authorityText l.text e rest) l.text =
      ⟨l.user.value, (l.worker.map Part.value).getD [], (l.password.map Part.value).getD ['X']⟩ := by
  have hdict : IsDict (allBlocks l rest) (btickBlocks (authorityText l.text e rest)) := by
    rw [← blocksFrom_authority htick]
    exact btickBlocks_isDict _
  have hpart {p : Part} (hp : p ∈ l.parts) := restore_part hdict hclear htick hp
  simp only [credentials, foldl_replaceAll_text hdict hclear htick]
  rw [l.joined_eq, usrPatterns_text (cuttable_tokens hdict hclear), Credentials.mk.injEq]
  refine ⟨hpart List.mem_cons_self, ?_, ?_⟩
  · cases hw : l.worker with
    | none => exact restore_of_not_mem List.not_mem_nil
    | some w => exact hpart (by simp [Login.parts, hw])
  · cases hp : l.password with
    | none => exact restore_of_not_mem (a := ['X']) (by decide)
    | some p => exact hpart (by simp [Login.parts, hp])

omit hdict hclear

theorem not_mem_value {c : Char} (hc : c ≠ '.' ∧ c ≠ ':') (h : ∀ x ∈ l.blocks, c ∉ x) {p : Part} (hp : p ∈ l.parts) :
    c ∉ p.value := by
  refine not_mem_joined (fun hmem => ?_) fun x hx => h x (Login.mem_blocks hp hx)
  rcases l.separators p hp c hmem with h | h
  · exact hc.1 h
  · exact hc.2 h

theorem not_mem_text {c : Char} (hc : c ≠ '.' ∧ c ≠ ':' ∧ c ≠ '\x60') (h : ∀ x ∈ l.blocks, c ∉ x) : c ∉ l.text := by
  rw [Login.text_eq]
  refine not_mem_joined (fun hmem => ?_) fun x hx => ?_
  · obtain ⟨x, hx, rfl⟩ := List.mem_map.mp hmem
    rcases Login.further_separator hx with h | h
    · exact hc.1 h
    · exact hc.2.1 h
  · simp [quoted, hc.2.2, h x hx]

theorem text_ne_nil : l.text ≠ [] := by
  intro h
  rw [Login.text_eq] at h
  cases hl : l.further with
  | nil => simp [hl, joined, quoted] at h
  | cons x m => simp [hl, joined, quoted] at h

theorem withoutBackticks_getD {o : Option Part} (ho : ∀ p ∈ o, p ∈ l.parts) (htick : ∀ x ∈ l.blocks, '\x60' ∉ x)
    {d : List Char} (hd : '\x60' ∉ d) :
    withoutBackticks ((o.map Part.value).getD d) = (o.map Part.value).getD d := by
  apply withoutBackticks_of_not_mem
  cases o with
  | none => exact hd
  | some p => exact not_mem_value (by decide) htick (ho p rfl)

end ticked

theorem decoded_getD_iff (o : Option Part) {d : List Char} (hd : decoded d = d) :
    decoded ((o.map Part.value).getD d) = (o.map Part.value).getD d ↔ ∀ p ∈ o, decoded p.value = p.value := by
  cases o with
  | none => simp [hd]
  | some p => simp

/-- Quoted credentials are accepted, however many blocks the authority has. If no block is a separator or the
    token of an earlier one, they are taken literally exactly if percent-decoding leaves each part as it is. -/
theorem quoted_credentials_iff (fromString : List Char → Option Address) {scheme : String}
    (hscheme : scheme ∈ schemes.map Prod.fst) (hsim : scheme ≠ "simulation") (l : Login)
    (hblocks : ∀ x ∈ l.blocks, ∀ c ∈ x, c ∉ ['\x60', '\n', '\r']) (e : Endpoint) (rest : Tail) :
    ∃ u, construct fromString (uriText scheme l.text e ++ rest.text) false = .ok u ∧ (Clear l (allBlocks l rest) →
      (u.user = l.user.value ∧ u.worker = (l.worker.map Part.value).getD [] ∧
        u.password = (l.password.map Part.value).getD ['X'] ↔ ∀ p ∈ l.parts, decoded p.value = p.value)) := by
  have hnot {c : Char} (hc : c ∈ ['\x60', '\n', '\r']) : ∀ x ∈ l.blocks, c ∉ x :=
    fun x hx hmem => hblocks x hx c hmem hc
  have hline : ∀ c ∈ l.text, isLineBreak c = false :=
    not_isLineBreak (not_mem_text (by decide) (hnot (by decide))) (not_mem_text (by decide) (hnot (by decide)))
  obtain ⟨u, hu, huser, hworker, hpassword⟩ :=
    @construct_uriText fromString _ hscheme hsim _ text_ne_nil hline e rest false
  refine ⟨u, hu, fun hclear => ?_⟩
  have htick := hnot (c := '\x60') (by decide)
  rw [credentials_ticked hclear htick] at huser hworker hpassword
  rw [withoutBackticks_of_not_mem (not_mem_value (by decide) htick List.mem_cons_self)] at huser
  rw [withoutBackticks_getD (l := l) (fun w hw => by simp [Login.parts, Option.mem_def.mp hw]) htick (by decide)]
    at hworker
  rw [withoutBackticks_getD (l := l) (fun p hp => by simp [Login.parts, Option.mem_def.mp hp]) htick (by decide)]
    at hpassword
  rw [huser, hworker, hpassword, decoded_getD_iff _ (by decide), decoded_getD_iff _ (by decide)]
  simp only [Login.parts, List.forall_mem_cons, List.forall_mem_append, Option.mem_toList, Option.mem_def]

def userOf (text : String) : Option (List Char) := (construct (fun _ => none) text.toList false).toOption.map URI.user

/-- A plus sign in backticks becomes a blank. -/
theorem plus_decoded : userOf "stratum://`a+b`@pool:8008" = some "a b".toList := by decide +kernel

/-- The worker `.` takes the dot in front of it for itself. -/
theorem separator_taken : userOf "stratum://`a`.`.`@pool:8008" = some "a_1".toList := by decide +kernel

/-- The worker `_0` takes the token of the user. -/
theorem token_taken : userOf "stratum://`x`.`_0`@pool:8008" = some "_0".toList := by decide +kernel

/-- A user of eleven blocks, with dots and an at sign and the tokens of its first and last block. -/
def manyBlocks : Login where
  user := ⟨"_0".toList, ["1", "2", "account.1@x", "4", "5", "6", "7", "8", "9", "_10"].map fun x => ('.', x.toList)⟩
  worker := some ⟨"w:1".toList, []⟩
  separators := by
    simp only [← List.all_iff_forall_prop]
    decide +kernel
  cuttable := ⟨by simp, by simp [Part.separators], by simp, by simp [Part.separators]⟩

/-- A path with one more block. -/
def tickedPath : Tail := ⟨['/', '\x60', 'a', '\x60'], by simp, by simp⟩

theorem many_blocks_literal : ∃ u, construct (fun _ => none)
    (uriText "stratum" manyBlocks.text sampleEndpoint ++ tickedPath.text) false = .ok u ∧
      u.user = "_0.1.2.account.1@x.4.5.6.7.8.9._10".toList ∧ u.worker = "w:1".toList ∧ u.password = ['X'] := by
  obtain ⟨u, hu, hiff⟩ := @quoted_credentials_iff (fun _ => none) "stratum" (by decide) (by decide)
    manyBlocks (by simp only [← List.all_iff_forall_prop]; decide +kernel) sampleEndpoint tickedPath
  exact ⟨u, hu, (hiff ⟨by decide +kernel, by decide +kernel⟩).mpr (by decide +kernel)⟩

end CoreMiner.Pools
