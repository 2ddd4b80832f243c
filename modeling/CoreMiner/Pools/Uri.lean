/-
  CoreMiner.Pools.Uri — the URI of a pool (`PoolURI.h`, `PoolURI.cpp`), and the two places
  that make one from text: `-P` (`main.cpp`) and `PoolManager::addConnection`.

  The constructor cuts the text with regular expressions. Their `.` matches no line break,
  `^` and `$` the two ends of the text only, and what is repeated is as long as it can be; so
  each of them cuts at the last place it can. Backticks are to protect the separators: what
  they enclose is exchanged for a token before the user information is cut, and put back
  afterwards. Last, everything is percent-decoded.

  A constructed object should be usable: its scheme known, its host not empty. A text that
  does not look like a URI at all makes the constructor return instead of throw, though
  (`usable_iff`), and the object is a connection with no scheme and no host.
-/

import CoreMiner.Lib.Text
import CoreMiner.Stratum.State
import Mathlib.Data.Char
import Mathlib.Data.List.Lex
import Mathlib.Data.List.Sort

namespace CoreMiner.Pools

open DevCore Lib Text
open Stratum (SecureLevel UriHostNameType)

/-! ## Schemes -/

inductive ProtocolFamily where
  | getwork
  | stratum
  | simulation
  deriving DecidableEq, Repr

structure SchemeAttributes where
  family : ProtocolFamily
  secure : SecureLevel
  version : Nat
  deriving DecidableEq

def schemes : List (String × SchemeAttributes) := [
  ("stratum+tcp", ⟨.stratum, .none, 0⟩),
  ("stratum1+tcp", ⟨.stratum, .none, 1⟩),
  ("stratum2+tcp", ⟨.stratum, .none, 2⟩),
  ("stratum3+tcp", ⟨.stratum, .none, 3⟩),
  ("stratum+tls", ⟨.stratum, .tls, 0⟩),
  ("stratum1+tls", ⟨.stratum, .tls, 1⟩),
  ("stratum2+tls", ⟨.stratum, .tls, 2⟩),
  ("stratum3+tls", ⟨.stratum, .tls, 3⟩),
  ("stratum+tls12", ⟨.stratum, .tls12, 0⟩),
  ("stratum1+tls12", ⟨.stratum, .tls12, 1⟩),
  ("stratum2+tls12", ⟨.stratum, .tls12, 2⟩),
  ("stratum3+tls12", ⟨.stratum, .tls12, 3⟩),
  ("stratum+ssl", ⟨.stratum, .tls12, 0⟩),
  ("stratum1+ssl", ⟨.stratum, .tls12, 1⟩),
  ("stratum2+ssl", ⟨.stratum, .tls12, 2⟩),
  ("stratum3+ssl", ⟨.stratum, .tls12, 3⟩),
  ("http", ⟨.getwork, .none, 0⟩),
  ("getwork", ⟨.getwork, .none, 0⟩),
  ("stratum", ⟨.stratum, .none, 999⟩),
  ("stratums", ⟨.stratum, .tls, 999⟩),
  ("stratumss", ⟨.stratum, .tls12, 999⟩),
  ("simulation", ⟨.simulation, .none, 999⟩)]

def attributes? (scheme : List Char) : Option SchemeAttributes := schemes.lookup (String.ofList scheme)

/-- `s_schemes[m_scheme]`: a scheme that is missing is entered, with zeros. -/
def attributes (scheme : List Char) : SchemeAttributes := (attributes? scheme).getD ⟨.getwork, .none, 0⟩

/-! ## Decoding -/

/-- `is >> std::hex >> value` on two characters: blanks are skipped, a sign and the prefix `0x` are allowed, and what
    follows the digits is left. -/
def readHex (c d : Char) : Option Int :=
  if isSpace c then (fromHexChar d).map Int.ofNat
  else if c = '-' then (fromHexChar d).map fun v => -(v : Int)
  else if c = '+' then (fromHexChar d).map Int.ofNat
  else match fromHexChar c with
    | none => none
    | some v =>
      if c = '0' ∧ (d = 'x' ∨ d = 'X') then none
      else match fromHexChar d with
        | none => some (v : Int)
        | some w => some ((16 * v + w : Nat) : Int)

def charOf (value : Int) : Char := Char.ofNat (value % 256).toNat

def urlDecode : List Char → Option (List Char)
  | [] => some []
  | c :: s =>
    if c = '%' then match s with
      | d :: e :: s => match readHex d e with
        | some value => (urlDecode s).map (charOf value :: ·)
        | none => none
      | _ => none
    else if c = '+' then (urlDecode s).map (' ' :: ·)
    else (urlDecode s).map (c :: ·)

/-- What does not decode is left as it is. -/
def decoded (s : List Char) : List Char := (urlDecode s).getD s

/-! ## The parts -/

def isLineBreak (c : Char) : Bool := c = '\n' || c = '\r'

def isSchemeChar (c : Char) : Bool := c.isAlphanum || c = '+'

/-- The pattern `^([a-zA-Z0-9\+]{1,})\:\/\/(.*)$`. -/
def schAuth (uri : List Char) : Option (List Char × List Char) :=
  let scheme := uri.takeWhile isSchemeChar
  match uri.drop scheme.length with
  | ':' :: '/' :: '/' :: authority =>
    if scheme.isEmpty || authority.any isLineBreak then none else some (scheme, authority)
  | _ => none

/-- The pattern `^(.*)\@(.*)$`; without a match all is the urlinfo. -/
def usrUrl (authority : List Char) : List Char × List Char := (splitLast '@' authority).getD ([], authority)

/-- The contents of the blocks in backticks: `none` before a backtick that opens one. -/
def blocksFrom : Option (List Char) → List Char → List (List Char)
  | _, [] => []
  | none, c :: s => if c = '\x60' then blocksFrom (some []) s else blocksFrom none s
  | some block, c :: s => if c = '\x60' then block :: blocksFrom none s else blocksFrom (some (block ++ [c])) s

def key (i : Nat) : List Char := '_' :: Nat.toDigits 10 i

/-- `btick_blocks`, in the order of its keys. -/
def btickBlocks (authority : List Char) : List (List Char × List Char) :=
  ((blocksFrom none authority).zipIdx.map fun (block, i) => (key i, block)).insertionSort fun e e' => e.1 ≤ e'.1

structure Credentials where
  user : List Char := []
  worker : List Char := []
  password : List Char := ['X']
  deriving DecidableEq

/-- The patterns `^(.*)\.(.*)\:(.*)$`, `^(.*)\:(.*)$` and `^(.*)\.(.*)$`, in this order. -/
def usrPatterns (userinfo : List Char) : Credentials :=
  match splitLast ':' userinfo with
  | some (login, password) => match splitLast '.' login with
    | some (user, worker) => { user, worker, password }
    | none => { user := login, password }
  | none => match splitLast '.' userinfo with
    | some (user, worker) => { user, worker }
    | none => { user := userinfo }

/-- Cut the userinfo, with what backticks in the authority enclose exchanged for tokens. -/
def credentials (authority userinfo : List Char) : Credentials :=
  let blocks := btickBlocks authority
  let tokens := blocks.foldl (fun s e => replaceAll (quoted '\x60' e.2) (quoted '\x60' e.1) s) userinfo
  let c := usrPatterns tokens
  { user := restore '\x60' blocks c.user, worker := restore '\x60' blocks c.worker,
    password := restore '\x60' blocks c.password }

def lexicalCast (s : List Char) : Except String Nat :=
  let port := Digits.value 10 (s.map fun c => c.toNat - '0'.toNat)
  if port < 65536 then .ok port
  else .error "bad lexical cast: source type value could not be interpreted as target"

/-- The pattern `^(.*)\:([0-9]{1,5})$`. -/
def hostAndPort (hostinfo : List Char) : Except String (List Char × Nat) :=
  match splitLast ':' hostinfo with
  | some (host, digits) =>
    if 1 ≤ digits.length ∧ digits.length ≤ 5 ∧ digits.all Char.isDigit then do
      let port ← lexicalCast digits
      return (host, port)
    else return (hostinfo, 0)
  | none => return (hostinfo, 0)

/-- Path, query and fragment, by the patterns `(\/.*)\?(.*)\#(.*)$`, `(\/.*)\#(.*)$` and `(\/.*)\?(.*)$`. -/
def pathParts (pathinfo : List Char) : List Char × List Char × List Char :=
  match splitLast '#' pathinfo with
  | some (front, fragment) => match splitLast '?' front with
    | some (path, query) => (path, query, fragment)
    | none => (front, [], fragment)
  | none => match splitLast '?' pathinfo with
    | some (path, query) => (path, query, [])
    | none => (pathinfo, [], [])

/-! ## The object -/

structure Address where
  isV6 : Bool
  isLoopback : Bool

structure URI where
  scheme : List Char := []
  host : List Char := []
  port : Nat := 0
  path : List Char := []
  query : List Char := []
  fragment : List Char := []
  user : List Char := []
  password : List Char := ['X']
  worker : List Char := []
  hostType : UriHostNameType := .unknown
  /-- Not initialised for a name. -/
  isLoopBack : Option Bool := none
  uri : List Char

def URI.family (u : URI) : ProtocolFamily := (attributes u.scheme).family

def URI.version (u : URI) : Nat := (attributes u.scheme).version

def URI.secLevel (u : URI) : SecureLevel := (attributes u.scheme).secure

def isLabel (label : List Char) : Bool :=
  label.all (fun c => c.isAlphanum || c = '-') && label.head?.any Char.isAlphanum && label.getLast?.any Char.isAlphanum

/-- `hostNamePattern`: labels with dots between them. -/
def isHostName (host : List Char) : Bool := (host.splitOn '.').all isLabel

variable (fromString : List Char → Option Address)

def hostNameType (host : List Char) : UriHostNameType :=
  match fromString host with
  | some address => if address.isV6 then .ipv6 else .ipv4
  | none => if isHostName host then .dns else .basic

def withoutBackticks (s : List Char) : List Char := replaceAll ['\x60'] [] s

def login (authority : List Char) : Credentials :=
  let userinfo := (usrUrl authority).1
  if userinfo.isEmpty then {} else credentials authority userinfo

/-- Host and port in the authority: what is before the first slash behind the userinfo, in lower case. -/
def location (authority : List Char) : Except String (List Char × Nat) :=
  hostAndPort (((usrUrl authority).2.takeWhile (· ≠ '/')).map Char.toLower)

def assemble (uri scheme authority host : List Char) (port : Nat) : URI :=
  let c := login authority
  let (path, query, fragment) := pathParts ((usrUrl authority).2.dropWhile (· ≠ '/'))
  { scheme, host, port, uri
    path := decoded path, query := decoded query, fragment := decoded fragment
    user := decoded (withoutBackticks c.user)
    password := decoded (withoutBackticks c.password)
    worker := decoded (withoutBackticks c.worker)
    hostType := hostNameType fromString host
    isLoopBack := (fromString host).map Address.isLoopback }

def construct (uri : List Char) (sim : Bool) : Except String URI :=
  match schAuth uri with
  | none => .ok { uri }
  | some (scheme, authority) => do
    let scheme := scheme.map Char.toLower
    if authority.isEmpty then throw "Invalid authority"
    if !sim && scheme = "simulation".toList then throw "Invalid scheme"
    if (attributes? scheme).isNone then throw "Invalid scheme"
    let (host, port) ← location authority
    if host.isEmpty then throw "Missing host"
    return assemble fromString uri scheme authority host port

def poolArgument (i : Nat) (url : List Char) : Except String URI :=
  if url = "exit".toList ∧ i = 0 then .error "'exit' failover directive can't be the first in -P arguments list."
  else
    let url := if url = "exit".toList then "stratum+tcp://-:x@exit:0".toList else url
    (construct fromString url false).mapError ("Bad URI : " ++ ·)

def addConnectionText (connections : List URI) (connstring : List Char) : Except String (List URI) := do
  let uri ← construct fromString connstring false
  return connections ++ [uri]

/-! ## The shape of a URI -/

/-- A scheme, and behind `://` a single line. -/
def HasScheme (text : List Char) : Prop := ∃ scheme authority, text = scheme ++ ':' :: '/' :: '/' :: authority ∧
  scheme ≠ [] ∧ (∀ c ∈ scheme, isSchemeChar c = true) ∧ ∀ c ∈ authority, isLineBreak c = false

theorem schAuth_append {scheme authority : List Char} (hne : scheme ≠ [])
    (hscheme : ∀ c ∈ scheme, isSchemeChar c = true)
    (hline : ∀ c ∈ authority, isLineBreak c = false) :
    schAuth (scheme ++ ':' :: '/' :: '/' :: authority) = some (scheme, authority) := by
  have htake : (scheme ++ ':' :: '/' :: '/' :: authority).takeWhile isSchemeChar = scheme := by
    rw [List.takeWhile_append_of_pos hscheme, List.takeWhile_cons_of_neg (by decide), List.append_nil]
  have hempty : scheme.isEmpty = false := by simpa using hne
  have hany : authority.any isLineBreak = false := by simpa using hline
  rw [schAuth, htake, List.drop_left]
  simp only [hempty, hany, Bool.or_self, Bool.false_eq_true, if_false]

theorem schAuth_isSome_iff (text : List Char) : (schAuth text).isSome = true ↔ HasScheme text := by
  constructor
  · intro h
    unfold schAuth at h
    simp only at h
    split at h
    case h_1 authority hdrop =>
      split at h
      · cases h
      · rename_i hok
        rw [Bool.or_eq_true, not_or] at hok
        refine ⟨text.takeWhile isSchemeChar, authority, ?_, ?_, ?_, ?_⟩
        · rw [← hdrop]
          exact (List.prefix_iff_eq_append.mp ( List.takeWhile_prefix _)).symm
        · simpa using hok.1
        · exact fun c hc => List.mem_takeWhile_imp hc
        · simpa using hok.2
    · cases h
  · rintro ⟨scheme, authority, rfl, hne, hscheme, hline⟩
    rw [schAuth_append hne hscheme hline]
    rfl

/-! ## Usable objects -/

structure Usable (u : URI) : Prop where
  host : u.host ≠ []
  scheme : ∃ a, attributes? u.scheme = some a ∧ u.family = a.family ∧ u.version = a.version ∧ u.secLevel = a.secure

theorem attributes_of_isSome {u : URI} (h : (attributes? u.scheme).isSome = true) :
    ∃ a, attributes? u.scheme = some a ∧ u.family = a.family ∧ u.version = a.version ∧ u.secLevel = a.secure := by
  obtain ⟨a, ha⟩ := Option.isSome_iff_exists.mp h
  refine ⟨a, ha, ?_, ?_, ?_⟩
  · rw [URI.family, attributes, ha]; rfl
  · rw [URI.version, attributes, ha]; rfl
  · rw [URI.secLevel, attributes, ha]; rfl

variable {fromString}

structure Passes (uri : List Char) (sim : Bool) (scheme authority host : List Char) (port : Nat) : Prop where
  matches_ : ∃ text, schAuth uri = some (text, authority) ∧ scheme = text.map Char.toLower
  nonempty : authority ≠ []
  allowed : sim = true ∨ scheme ≠ "simulation".toList
  known : (attributes? scheme).isSome = true
  located : location authority = .ok (host, port)
  host : host ≠ []

theorem construct_eq {uri : List Char} {sim : Bool} {scheme authority host : List Char} {port : Nat}
    (h : Passes uri sim scheme authority host port) :
    construct fromString uri sim = .ok (assemble fromString uri scheme authority host port) := by
  obtain ⟨text, hmatch, hscheme⟩ := h.matches_
  have hknown : (attributes? scheme).isNone = false := by simpa using h.known
  have hallowed : (!sim && decide (scheme = "simulation".toList)) = false := by
    rcases h.allowed with hsim | hne
    · rw [hsim]
      rfl
    · rw [decide_eq_false hne, Bool.and_false]
  rw [construct, hmatch]
  simp only [← hscheme, List.isEmpty_iff, h.nonempty, hallowed, hknown, h.located, bind, Except.bind, pure, Except.pure,
    h.host, if_false, Bool.false_eq_true]

/-- Behind the first pattern, every exit throws or has passed all checks. -/
theorem passes_of_construct {uri : List Char} {sim : Bool} {u : URI} (hmatch : (schAuth uri).isSome = true)
    (h : construct fromString uri sim = .ok u) : ∃ scheme authority host port,
      Passes uri sim scheme authority host port ∧ u = assemble fromString uri scheme authority host port := by
  obtain ⟨⟨text, authority⟩, hs⟩ := Option.isSome_iff_exists.mp hmatch
  rw [construct, hs] at h
  simp only [bind, Except.bind, pure, Except.pure, throw, throwThe, MonadExceptOf.throw] at h
  by_cases hauthority : authority.isEmpty = true
  · rw [if_pos hauthority] at h
    cases h
  rw [if_neg hauthority] at h
  by_cases hallowed : (!sim && decide (text.map Char.toLower = "simulation".toList)) = true
  · rw [if_pos hallowed] at h
    cases h
  rw [if_neg hallowed] at h
  by_cases hknown : (attributes? (text.map Char.toLower)).isNone = true
  · rw [if_pos hknown] at h
    cases h
  rw [if_neg hknown] at h
  rcases hlocation : location authority with x | ⟨host, port⟩
  · rw [hlocation] at h
    cases h
  · rw [hlocation] at h
    by_cases hhost : host.isEmpty = true
    · simp [hhost] at h
    · simp only [hhost] at h
      cases h
      refine ⟨text.map Char.toLower, authority, host, port, ⟨⟨text, hs, rfl⟩, ?_, ?_, ?_, hlocation, ?_⟩, rfl⟩
      · simpa using hauthority
      · by_cases hsim : sim = true
        · exact .inl hsim
        · refine .inr fun heq => hallowed ?_
          rw [Bool.not_eq_true] at hsim
          rw [hsim, decide_eq_true heq]
          rfl
      · simpa [Option.isSome_iff_ne_none] using hknown
      · simpa using hhost

theorem usable_of_schAuth {uri : List Char} {sim : Bool} {u : URI} (hmatch : (schAuth uri).isSome = true)
    (h : construct fromString uri sim = .ok u) : Usable u := by
  obtain ⟨scheme, authority, host, port, hpasses, rfl⟩ := passes_of_construct hmatch h
  exact ⟨hpasses.host, attributes_of_isSome hpasses.known⟩

/-- Where the pattern does not match, the constructor returns an object with neither scheme nor host. -/
theorem construct_of_no_match {uri : List Char} (h : schAuth uri = none) (sim : Bool) :
    construct fromString uri sim = .ok { uri } := by rw [construct, h]

theorem not_usable_default (uri : List Char) : ¬ Usable { uri } := fun h => h.host rfl

theorem construct_usable_iff (uri : List Char) (sim : Bool) :
    (∀ u, construct fromString uri sim = .ok u → Usable u) ↔ (schAuth uri).isSome = true := by
  constructor
  · intro h
    by_contra hno
    rw [Option.not_isSome_iff_eq_none] at hno
    exact not_usable_default uri (h _ (construct_of_no_match hno sim))
  · exact fun hmatch u h => usable_of_schAuth hmatch h

theorem mapError_ok {ε ε' α : Type} {f : ε → ε'} {e : Except ε α} {a : α} (h : e.mapError f = .ok a) : e = .ok a := by
  cases e with
  | error x => cases h
  | ok b =>
    cases h
    rfl

/-- The constructor, `-P` and `addConnectionText` accept only what is usable, exactly if the text has the shape of a URI
    (for `-P`, or is `exit`). -/
theorem usable_iff (fromString : List Char → Option Address) (text : List Char) (sim : Bool) (i : Nat)
    (connections : List URI) :
    ((∀ u, construct fromString text sim = .ok u → Usable u) ↔ HasScheme text) ∧
    ((∀ u, poolArgument fromString i text = .ok u → Usable u) ↔ text = "exit".toList ∨ HasScheme text) ∧
    ((∀ l, addConnectionText fromString connections text = .ok l → ∃ u, Usable u ∧ l = connections ++ [u]) ↔
      HasScheme text) := by
  have hconstruct (text : List Char) (sim : Bool) :
      (∀ u, construct fromString text sim = .ok u → Usable u) ↔ HasScheme text := by
    rw [construct_usable_iff, schAuth_isSome_iff]
  refine ⟨hconstruct text sim, ?_, ?_⟩
  · by_cases hexit : text = "exit".toList
    · refine iff_of_true (fun u h => ?_) (.inl hexit)
      by_cases hi : i = 0
      · rw [poolArgument, if_pos ⟨hexit, hi⟩] at h
        cases h
      · rw [poolArgument, if_neg fun h => hi h.2, if_pos hexit] at h
        exact usable_of_schAuth (by decide) (mapError_ok h)
    · rw [poolArgument, if_neg fun h => hexit h.1, if_neg hexit, ← hconstruct text false]
      simp only [hexit, false_or]
      exact forall_congr' fun u => imp_congr_left ⟨mapError_ok, fun h => by rw [h]; rfl⟩
  · rw [← hconstruct text false]
    unfold addConnectionText
    cases construct fromString text false with
    | error x => exact iff_of_true (fun _ h => nomatch h) fun _ h => nomatch h
    | ok u =>
      constructor
      · intro h v hv
        cases hv
        obtain ⟨w, hw, heq⟩ := h _ rfl
        rw [List.append_cancel_left_eq, List.singleton_inj] at heq
        rwa [heq]
      · intro h l hl
        cases hl
        exact ⟨u, h u rfl, rfl⟩

/-- A word is accepted as a connection, with no scheme and no host. -/
theorem word_accepted : construct (fun _ => none) "hello".toList false = .ok { uri := "hello".toList } ∧
    ¬ Usable { uri := "hello".toList } ∧
    poolArgument (fun _ => none) 0 "hello".toList = .ok { uri := "hello".toList } :=
  ⟨rfl, not_usable_default _, rfl⟩

end CoreMiner.Pools
