import Jkit.Common.UrlParser

/-! # What `ParseURL` reads

`Parts` is what a text of a URL is made of. A part that is missing is kept apart from an empty one, which
the parser does not tell apart, and the conditions on the characters are fields, so that the text of
`Parts` can be cut in one way only.

* `parseURL_valid_iff`: the parser accepts exactly the texts of `Parts`, and gives these parts.
* `parseURL_error_iff`: when it gives up and with which error; three of the error codes are never used.
* `parseURL_unparse`: what it has read can be written again, and is read as the same.
* `getPort_eq_some_iff`: which texts of the port `GetPort` takes for which number. -/

namespace Jkit.Common.UrlGrammar

open Jkit.Http.Message Jkit.Lib.Scan Jkit.Common.UrlParser

/-! ### Parts of a URL -/

/-- The user information: the user name and the password. -/
structure User where
  name : Str
  password : Option Str
  name_ok : ∀ c ∈ name, c ≠ 58 ∧ c ≠ 64 ∧ c ≠ 47
  password_ok : ∀ w ∈ password, ∀ c ∈ w, c ≠ 64 ∧ c ≠ 47

def User.text (u : User) : Str := u.name ++ (optText 58 u.password ++ [64])

/-- The path, the query and the fragment. -/
structure Tail where
  path : Str
  query : Option Str
  fragment : Option Str
  path_ok : ∀ c ∈ path, c ≠ 35 ∧ c ≠ 63
  query_ok : ∀ w ∈ query, ∀ c ∈ w, c ≠ 35

def Tail.text (t : Tail) : Str := 47 :: (t.path ++ (optText 63 t.query ++ optText 35 t.fragment))

/-- The text of an optional part. -/
def optional {α : Type} (f : α → Str) : Option α → Str
  | none => []
  | some x => f x

/-- A host without brackets ends before a `:` or a `/`. -/
def PlainHost (h : Str) : Prop := h.head? ≠ some 91 ∧ ∀ c ∈ h, c ≠ 58 ∧ c ≠ 47

/-- A host in brackets. -/
def ClosedHost (h : Str) : Prop := ∃ body, 93 ∉ body ∧ h = 91 :: (body ++ [93])

/-- A bracket that is not closed. -/
def OpenHost (h : Str) : Prop := h.head? = some 91 ∧ 93 ∉ h

/-- The parts of a URL. -/
structure Parts where
  scheme : Str
  user : Option User
  host : Str
  port : Option Str
  tail : Option Tail
  scheme_ok : isSchemeValid scheme = true
  /-- A bracket that is not closed takes the rest of the text. -/
  host_ok : PlainHost host ∨ ClosedHost host ∨ OpenHost host ∧ port = none ∧ tail = none
  port_ok : ∀ w ∈ port, ∀ c ∈ w, c ≠ 47
  /-- What stands before an `@` would be a user name. -/
  user_ok : user = none → hasUserName (host ++ (optText 58 port ++ optional Tail.text tail)) = false

/-- The text behind the user information. -/
def Parts.hostText (p : Parts) : Str := p.host ++ (optText 58 p.port ++ optional Tail.text p.tail)

def Parts.text (p : Parts) : Str :=
  p.scheme ++ 58 :: 47 :: 47 :: (optional User.text p.user ++ p.hostText)

/-- What the parser makes of the parts. -/
def Parts.result (p : Parts) : ClParseURL where
  errorCode := .ok
  scheme := p.scheme.map tolower
  userName := (p.user.map User.name).getD []
  password := (p.user.bind User.password).getD []
  host := p.host
  port := p.port.getD []
  path := (p.tail.map Tail.path).getD []
  query := (p.tail.bind Tail.query).getD []
  fragment := (p.tail.bind Tail.fragment).getD []

/-! ### The path, the query and the fragment -/

theorem readPath_text (r : ClParseURL) (t : Tail) :
    readPath r (t.path ++ (optText 63 t.query ++ optText 35 t.fragment)) =
      { r with
        path := t.path, query := t.query.getD [], fragment := t.fragment.getD [], errorCode := .ok } := by
  have hpath : ∀ c ∈ t.path, (c != 35 && c != 63) = true := by
    intro c hc
    simpa using t.path_ok c hc
  have hstop : Stops (fun c => c != 35 && c != 63) (optText 63 t.query ++ optText 35 t.fragment) := by
    rcases t.query with - | q
    · rcases t.fragment with - | f
      · exact stops_nil
      · exact stops_cons rfl
    · exact stops_cons rfl
  have hfrag : Stops (fun c : UInt8 => c != 35) (optText 35 t.fragment) := by
    rcases t.fragment with - | f
    · exact stops_nil
    · exact stops_cons rfl
  have hq : t.query = none → (optText 35 t.fragment).head? ≠ some 63 := by
    intro _
    rcases t.fragment with - | f
    · simp [optText]
    · simp [optText]
  obtain ⟨htake, hdrop⟩ := scan_append hpath hstop
  have hquery := readOpt_optText (p := fun c : UInt8 => c != 35) (o := t.query)
    (fun w hw c hc => by simpa using t.query_ok w hw c hc) (fun _ => hfrag) hq
  have hfragment := readOpt_optText (p := fun _ : UInt8 => true) (b := 35) (o := t.fragment) (r := [])
    (by simp) (fun _ => stops_nil) (by simp)
  rw [List.append_nil] at hfragment
  simp only [readPath, htake, hdrop, hquery, hfragment]

/-- Every text is a path, a query and a fragment. -/
theorem exists_tail (l : Str) :
    ∃ t : Tail, l = t.path ++ (optText 63 t.query ++ optText 35 t.fragment) := by
  obtain ⟨path, r, rfl, hpath, hstop⟩ := exists_scan (fun c : UInt8 => c != 35 && c != 63) l
  have hpath' : ∀ c ∈ path, c ≠ 35 ∧ c ≠ 63 := fun c hc => by simpa using hpath c hc
  rcases r with - | ⟨c, r⟩
  · exact ⟨⟨path, none, none, hpath', by simp⟩, rfl⟩
  · by_cases hc : c = 63
    · obtain ⟨query, r', rfl, hquery, hstop'⟩ := exists_scan (fun c : UInt8 => c != 35) r
      obtain ⟨fragment, rfl⟩ := exists_optText hstop'
      refine ⟨⟨path, some query, fragment, hpath', ?_⟩, by rw [hc]; rfl⟩
      intro w hw c hc
      rw [← Option.mem_some_iff.mp hw] at hc
      simpa using hquery c hc
    · have hc' : c = 35 := by
        have hbad := hstop c rfl
        simp only [Bool.and_eq_false_iff, bne_eq_false_iff_eq] at hbad
        exact hbad.resolve_right hc
      exact ⟨⟨path, none, some r, hpath', by simp⟩, by rw [hc']; rfl⟩

/-! ### The host -/

theorem hostLoop_plain {h r : Str} (hh : ∀ c ∈ h, c ≠ 58 ∧ c ≠ 47)
    (hr : Stops (fun c : UInt8 => c != 58 && c != 47) r) : hostLoop false (h ++ r) = (h, r) := by
  induction h with
  | nil =>
    rcases r with - | ⟨c, r⟩
    · rfl
    · have hc := hr c rfl
      simp only [Bool.and_eq_false_iff, bne_eq_false_iff_eq] at hc
      rcases hc with rfl | rfl
      · rfl
      · rfl
  | cons c h ih =>
    obtain ⟨hc1, hc2⟩ := hh c List.mem_cons_self
    have hrest := ih fun d hd => hh d (List.mem_cons_of_mem _ hd)
    rw [List.cons_append, hostLoop]
    simp [hc1, hc2, hrest]

theorem hostLoop_bracket {body r : Str} (h : 93 ∉ body) :
    hostLoop true (body ++ 93 :: r) = (body ++ [93], r) := by
  induction body with
  | nil => simp [hostLoop]
  | cons c body ih =>
    rw [List.mem_cons, not_or] at h
    have hrest := ih h.2
    have hc : (c == 93) = false := by simpa using Ne.symm h.1
    rw [List.cons_append, hostLoop]
    simp [hc, hrest]

theorem hostLoop_open {h : Str} (hh : 93 ∉ h) : hostLoop true h = (h, []) := by
  induction h with
  | nil => rfl
  | cons c h ih =>
    rw [List.mem_cons, not_or] at hh
    have hrest := ih hh.2
    have hc : (c == 93) = false := by simpa using Ne.symm hh.1
    rw [hostLoop]
    simp [hc, hrest]

/-- The port and what follows it begin with a `:` or a `/`. -/
theorem stops_port (port : Option Str) (tail : Option Tail) :
    Stops (fun c : UInt8 => c != 58 && c != 47) (optText 58 port ++ optional Tail.text tail) := by
  rcases port with - | w
  · rcases tail with - | t
    · exact stops_nil
    · exact stops_cons rfl
  · exact stops_cons rfl

theorem readHost_hostText (p : Parts) :
    readHost p.hostText = (p.host, optText 58 p.port ++ optional Tail.text p.tail) := by
  unfold readHost Parts.hostText
  rcases p.host_ok with ⟨hhead, hchars⟩ | ⟨body, hbody, heq⟩ | ⟨⟨hhead, hopen⟩, hport, htail⟩
  · have hb : ((p.host ++ (optText 58 p.port ++ optional Tail.text p.tail)).head? == some 91) = false := by
      rcases hh : p.host with - | ⟨c, h⟩
      · rcases p.port with - | w
        · rcases p.tail with - | t
          · rfl
          · rfl
        · rfl
      · rw [hh] at hhead
        simpa using hhead
    rw [hb]
    exact hostLoop_plain hchars (stops_port _ _)
  · rw [heq]
    have hloop := @hostLoop_bracket (91 :: body) (optText 58 p.port ++ optional Tail.text p.tail)
      (by simpa using hbody)
    simpa using hloop
  · rw [hport, htail]
    have hb : ((p.host ++ (optText 58 none ++ optional Tail.text none)).head? == some 91) = true := by
      simpa [optText, optional] using hhead
    rw [hb]
    have hloop := hostLoop_open hopen
    simpa [optText, optional] using hloop

/-- A port and a tail, behind a host in brackets or a plain one. -/
theorem exists_port {r : Str} (h : Stops (fun c : UInt8 => c != 58 && c != 47) r) :
    ∃ (port : Option Str) (tail : Option Tail), (∀ w ∈ port, ∀ c ∈ w, c ≠ 47) ∧
      r = optText 58 port ++ optional Tail.text tail := by
  have htail : ∀ l : Str, Stops (fun c : UInt8 => c != 47) l → ∃ tail : Option Tail,
      l = optional Tail.text tail := by
    intro l hl
    obtain ⟨o, rfl⟩ := exists_optText hl
    rcases o with - | l
    · exact ⟨none, rfl⟩
    · obtain ⟨t, rfl⟩ := exists_tail l
      exact ⟨some t, rfl⟩
  rcases r with - | ⟨c, r⟩
  · exact ⟨none, none, by simp, rfl⟩
  · by_cases hc : c = 58
    · obtain ⟨w, r', rfl, hw, hstop⟩ := exists_scan (fun c : UInt8 => c != 47) r
      obtain ⟨tail, rfl⟩ := htail r' hstop
      refine ⟨some w, tail, ?_, by rw [hc]; rfl⟩
      intro w' hw' c hc
      rw [← Option.mem_some_iff.mp hw'] at hc
      simpa using hw c hc
    · have hstop : Stops (fun c : UInt8 => c != 47) (c :: r) := by
        have hbad := h c rfl
        simp only [Bool.and_eq_false_iff, bne_eq_false_iff_eq] at hbad
        exact stops_cons (by simpa using hbad.resolve_left hc)
      obtain ⟨tail, htext⟩ := htail _ hstop
      exact ⟨none, tail, by simp, htext⟩

/-- What stands behind the user information: a host with a port and a tail, or a host in brackets that is
followed by something else. -/
theorem exists_host (l : Str) :
    (∃ (host : Str) (port : Option Str) (tail : Option Tail),
      (PlainHost host ∨ ClosedHost host ∨ OpenHost host ∧ port = none ∧ tail = none) ∧
      (∀ w ∈ port, ∀ c ∈ w, c ≠ 47) ∧ l = host ++ (optText 58 port ++ optional Tail.text tail)) ∨
    ∃ (host : Str) (c : UInt8) (r : Str), ClosedHost host ∧ c ≠ 58 ∧ c ≠ 47 ∧ l = host ++ c :: r := by
  by_cases hhead : l.head? = some 91
  · by_cases hclosed : 93 ∈ l
    · obtain ⟨r, rfl⟩ : ∃ r, l = 91 :: r := by
        rcases l with - | ⟨c, r⟩
        · exact absurd hhead (by simp)
        · exact ⟨r, by rw [Option.some.inj hhead]⟩
      have hr : 93 ∈ r := by simpa using hclosed
      obtain ⟨body, r', rfl, hbody, hstop⟩ := exists_scan (fun c : UInt8 => c != 93) r
      have hbody' : 93 ∉ body := fun h93 => by simpa using hbody 93 h93
      obtain ⟨o, rfl⟩ := exists_optText hstop
      rcases o with - | r'
      · exact absurd hr (by simpa [optText] using hbody')
      have hhost : ClosedHost (91 :: (body ++ [93])) := ⟨body, hbody', rfl⟩
      have hsplit : 91 :: (body ++ optText 93 (some r')) = 91 :: (body ++ [93]) ++ r' := by
        simp [optText]
      rw [hsplit]
      by_cases hport : Stops (fun c : UInt8 => c != 58 && c != 47) r'
      · obtain ⟨port, tail, hpo, rfl⟩ := exists_port hport
        exact Or.inl ⟨_, port, tail, Or.inr (Or.inl hhost), hpo, rfl⟩
      · rcases r' with - | ⟨c, r'⟩
        · exact absurd stops_nil hport
        · have hc : c ≠ 58 ∧ c ≠ 47 := by
            by_contra hno
            refine hport (stops_cons ?_)
            simpa [Decidable.imp_iff_not_or] using hno
          exact Or.inr ⟨_, c, r', hhost, hc.1, hc.2, rfl⟩
    · exact Or.inl ⟨l, none, none, Or.inr (Or.inr ⟨⟨hhead, hclosed⟩, rfl, rfl⟩), by simp,
        by simp [optText, optional]⟩
  · obtain ⟨host, r, rfl, hhost, hstop⟩ := exists_scan (fun c : UInt8 => c != 58 && c != 47) l
    obtain ⟨port, tail, hpo, rfl⟩ := exists_port hstop
    refine Or.inl ⟨host, port, tail, Or.inl ⟨?_, fun c hc => by simpa using hhost c hc⟩, hpo, rfl⟩
    rcases host with - | ⟨c, h⟩
    · simp
    · exact hhead

/-! ### The user information -/

theorem hasUserName_text (u : User) (r : Str) : hasUserName (u.text ++ r) = true := by
  have hrun : ∀ l : Str, (∀ c ∈ l, c ≠ 64 ∧ c ≠ 47) → ∀ r, hasUserName (l ++ 64 :: r) = true := by
    intro l hl r
    induction l with
    | nil => rfl
    | cons c l ih =>
      obtain ⟨hc1, hc2⟩ := hl c List.mem_cons_self
      rw [List.cons_append, hasUserName, if_neg hc1, if_neg hc2]
      exact ih fun d hd => hl d (List.mem_cons_of_mem _ hd)
  have hl : ∀ c ∈ u.name ++ optText 58 u.password, c ≠ 64 ∧ c ≠ 47 := by
    intro c hc
    rcases List.mem_append.mp hc with hc | hc
    · exact (u.name_ok c hc).2
    · rcases hp : u.password with - | w
      · rw [hp] at hc
        exact absurd hc (by simp [optText])
      · rw [hp] at hc
        rcases List.mem_cons.mp hc with rfl | hc
        · decide
        · exact u.password_ok w hp c hc
  have htext : u.text ++ r = (u.name ++ optText 58 u.password) ++ 64 :: r := by
    simp [User.text]
  rw [htext]
  exact hrun _ hl r

/-- An `@` before the first `/` ends user information. -/
theorem exists_user {l : Str} (h : hasUserName l = true) : ∃ (u : User) (r : Str), l = u.text ++ r := by
  have hsplit : ∀ l : Str, hasUserName l = true →
      ∃ a r, l = a ++ 64 :: r ∧ ∀ c ∈ a, c ≠ 64 ∧ c ≠ 47 := by
    intro l
    induction l with
    | nil => simp [hasUserName]
    | cons c l ih =>
      intro hl
      rw [hasUserName] at hl
      split_ifs at hl with hc1 hc2
      · exact ⟨[], l, by rw [hc1]; rfl, by simp⟩
      · obtain ⟨a, r, rfl, ha⟩ := ih hl
        refine ⟨c :: a, r, rfl, ?_⟩
        intro d hd
        rcases List.mem_cons.mp hd with rfl | hd
        · exact ⟨hc1, hc2⟩
        · exact ha d hd
  obtain ⟨a, r, rfl, ha⟩ := hsplit l h
  obtain ⟨name, w, rfl, hname, hstop⟩ := exists_scan (fun c : UInt8 => c != 58) a
  obtain ⟨password, rfl⟩ := exists_optText hstop
  refine ⟨⟨name, password, ?_, ?_⟩, r, by simp [User.text]⟩
  · intro c hc
    exact ⟨by simpa using hname c hc, ha c (List.mem_append_left _ hc)⟩
  · intro w hw c hc
    rw [Option.mem_def.mp hw] at ha
    exact ha c (List.mem_append_right _ (List.mem_cons_of_mem _ hc))

theorem readUser_text (res : ClParseURL) (u : User) (r : Str) :
    readUser res (u.text ++ r) =
      some ({ res with userName := u.name, password := u.password.getD [] }, r) := by
  have htext : u.text ++ r = u.name ++ (optText 58 u.password ++ 64 :: r) := by simp [User.text]
  have hname : ∀ c ∈ u.name, (c != 58 && c != 64) = true := by
    intro c hc
    obtain ⟨h1, h2, -⟩ := u.name_ok c hc
    simp [h1, h2]
  have hstop : Stops (fun c : UInt8 => c != 58 && c != 64) (optText 58 u.password ++ 64 :: r) := by
    rcases u.password with - | w
    · exact stops_cons rfl
    · exact stops_cons rfl
  obtain ⟨htake, hdrop⟩ := scan_append hname hstop
  have hpassword := readOpt_optText (p := fun c : UInt8 => c != 64) (b := 58) (o := u.password)
    (r := 64 :: r) (fun w hw c hc => by simpa using (u.password_ok w hw c hc).1)
    (fun _ => stops_cons rfl) (by simp)
  rw [readUser, if_pos (hasUserName_text u r), htext]
  simp only [htake, hdrop, hpassword, skip_cons, Option.map_some]

/-! ### The whole text -/

/-- The text in front of the host is read in any case: there is no error `NoAtSign`. -/
theorem readUser_optional (res : ClParseURL) (user : Option User) (r : Str)
    (h : user = none → hasUserName r = false) :
    readUser res (optional User.text user ++ r) =
      some ({ res with
        userName := (user.map User.name).getD res.userName
        password := (user.map fun u => u.password.getD []).getD res.password }, r) := by
  rcases user with - | u
  · rw [readUser, optional, List.nil_append, if_neg (by simp [h rfl])]
    rfl
  · exact readUser_text res u r

/-- Every text is user information, or none, and a rest. -/
theorem exists_optional (l : Str) : ∃ (user : Option User) (r : Str),
    l = optional User.text user ++ r ∧ (user = none → hasUserName r = false) := by
  by_cases h : hasUserName l = true
  · obtain ⟨u, r, rfl⟩ := exists_user h
    exact ⟨some u, r, rfl, by simp⟩
  · exact ⟨none, l, rfl, fun _ => by simpa using h⟩

theorem readAuthority_text (p : Parts) :
    readAuthority { scheme := p.scheme.map tolower } (optional User.text p.user ++ p.hostText) =
      p.result := by
  have hport : readOpt 58 (· != 47) (optText 58 p.port ++ optional Tail.text p.tail) =
      (p.port.getD [], optional Tail.text p.tail) := by
    refine readOpt_optText (fun w hw c hc => by simpa using p.port_ok w hw c hc) (fun _ => ?_) fun _ => ?_
    · rcases p.tail with - | t
      · exact stops_nil
      · exact stops_cons rfl
    · rcases p.tail with - | t
      · simp [optional]
      · simp [optional, Tail.text]
  have hpassword : (p.user.map fun u => u.password.getD []).getD [] =
      (p.user.bind User.password).getD [] := by
    rcases p.user with - | u
    · rfl
    · rfl
  have huser := readUser_optional { scheme := p.scheme.map tolower } p.user p.hostText p.user_ok
  unfold readAuthority
  rw [huser]
  simp only [readHost_hostText, hport, hpassword]
  unfold Parts.result
  rcases p.tail with - | t
  · rfl
  · rw [if_neg (by simp [optional, Tail.text]), optional, Tail.text, skip_cons]
    simp only [readPath_text, Option.map_some, Option.bind_some, Option.getD_some]

theorem isSchemeValid_ne {scheme : Str} (h : isSchemeValid scheme = true) :
    ∀ c ∈ scheme, (c != 58) = true := by
  intro c hc
  have hok := List.all_eq_true.mp h c hc
  by_contra hno
  have h58 : c = 58 := by simpa using hno
  rw [h58] at hok
  exact absurd hok (by decide)

/-- The text behind a valid scheme. -/
theorem parseURL_scheme {url scheme r : Str} (h : isSchemeValid scheme = true)
    (hurl : cStr url = scheme ++ 58 :: r) :
    parseURL url = match (skip 47 r).bind (skip 47) with
      | none => failed .noDoubleSlash
      | some cur => readAuthority { scheme := scheme.map tolower } cur := by
  obtain ⟨htake, hdrop⟩ := scan_append (isSchemeValid_ne h)
    (stops_cons rfl : Stops (fun c : UInt8 => c != 58) (58 :: r))
  unfold parseURL
  rw [hurl]
  simp only [htake, hdrop, h, skip_cons, Option.bind_some]
  rw [if_neg (by simp)]
  rfl

theorem parseURL_text {url : Str} {p : Parts} (h : cStr url = p.text) : parseURL url = p.result := by
  rw [parseURL_scheme p.scheme_ok h]
  simp only [skip_cons, Option.bind_some]
  exact readAuthority_text p

/-- Why the parser gives up on a text. -/
inductive Fault : Str → LUrlParserError → Prop
  /-- There is no `:`. -/
  | colon {l : Str} (h : 58 ∉ l) : Fault l .noUrlCharacter
  /-- A character before the first `:` does not belong into a scheme. -/
  | scheme {a r : Str} (ha : 58 ∉ a) (h : isSchemeValid a = false) : Fault (a ++ 58 :: r) .invalidSchemeName
  /-- No two slashes follow the scheme. -/
  | slashes {a r : Str} (ha : isSchemeValid a = true) (h : ¬[47, 47] <+: r) :
      Fault (a ++ 58 :: r) .noDoubleSlash
  /-- A host in brackets is followed by something else than a port or a path. -/
  | bracket {a host r : Str} {c : UInt8} (ha : isSchemeValid a = true) (user : Option User)
      (hhost : ClosedHost host) (hc : c ≠ 58) (hc' : c ≠ 47)
      (huser : user = none → hasUserName (host ++ c :: r) = false) :
      Fault (a ++ 58 :: 47 :: 47 :: (optional User.text user ++ (host ++ c :: r))) .noSlash

theorem skip_slashes {r : Str} : (skip 47 r).bind (skip 47) = none ↔ ¬[47, 47] <+: r := by
  constructor
  · rintro h ⟨t, rfl⟩
    simp [skip] at h
  · intro h
    rcases h1 : skip 47 r with - | r1
    · rfl
    rcases h2 : skip 47 r1 with - | r2
    · exact h2
    rw [skip_eq_some.mp h1, skip_eq_some.mp h2] at h
    exact absurd ⟨r2, rfl⟩ h

/-- A fault is reported. -/
theorem parseURL_of_fault {url : Str} {e : LUrlParserError} (h : Fault (cStr url) e) :
    parseURL url = failed e := by
  generalize hl : cStr url = l at h
  rcases h with h | ⟨ha, h⟩ | ⟨ha, h⟩ | ⟨ha, user, hhost, hc, hc', huser⟩
  · unfold parseURL
    rw [hl, if_pos h]
  · rename_i a r
    have ha' : ∀ c ∈ a, (c != 58) = true := fun c hc => by
      rw [bne_iff_ne]
      rintro rfl
      exact ha hc
    obtain ⟨htake, -⟩ := scan_append ha' (stops_cons rfl : Stops (fun c : UInt8 => c != 58) (58 :: r))
    unfold parseURL
    rw [hl, if_neg (by simp)]
    simp only [htake, h, Bool.not_false, if_true]
  · rw [parseURL_scheme ha hl, skip_slashes.mpr h]
  · rename_i a host r c
    obtain ⟨body, hbody, rfl⟩ := hhost
    have hread : readHost (91 :: (body ++ [93]) ++ c :: r) = (91 :: (body ++ [93]), c :: r) := by
      have hloop := @hostLoop_bracket (91 :: body) (c :: r) (by simpa using hbody)
      simpa [readHost] using hloop
    have hport : readOpt 58 (· != 47) (c :: r) = ([], c :: r) := by
      rw [readOpt, skip_eq_none.mpr (by simpa using hc)]
    rw [parseURL_scheme ha hl]
    simp only [skip_cons, Option.bind_some]
    unfold readAuthority
    rw [readUser_optional _ _ _ huser]
    simp only [hread, hport]
    rw [if_neg (by simp), skip_eq_none.mpr (by simpa using hc')]

/-- Every text has a fault or is the text of parts. -/
theorem fault_or_parts (l : Str) : (∃ e, Fault l e) ∨ ∃ p : Parts, l = p.text := by
  by_cases hcolon : 58 ∈ l
  swap
  · exact Or.inl ⟨_, .colon hcolon⟩
  obtain ⟨a, r, rfl, ha, hstop⟩ := exists_scan (fun c : UInt8 => c != 58) l
  have ha' : 58 ∉ a := fun h58 => by simpa using ha 58 h58
  obtain ⟨o, rfl⟩ := exists_optText hstop
  rcases o with - | r
  · exact absurd hcolon (by simpa [optText] using ha')
  by_cases hscheme : isSchemeValid a = true
  swap
  · exact Or.inl ⟨_, .scheme ha' (by simpa using hscheme)⟩
  by_cases hslash : [47, 47] <+: r
  swap
  · exact Or.inl ⟨_, .slashes hscheme hslash⟩
  obtain ⟨t, rfl⟩ := hslash
  obtain ⟨user, r, rfl, huser⟩ := exists_optional t
  rcases exists_host r with ⟨host, port, tail, hhost, hport, rfl⟩ | ⟨host, c, r, hhost, hc, hc', rfl⟩
  · exact Or.inr ⟨⟨a, user, host, port, tail, hscheme, hhost, hport, huser⟩, rfl⟩
  · exact Or.inl ⟨_, .bracket hscheme user hhost hc hc' huser⟩

theorem not_fault_ok {l : Str} : ¬Fault l .ok := by
  intro h
  rcases h

theorem exists_parts {url : Str} (h : (parseURL url).isValid = true) : ∃ p : Parts, cStr url = p.text := by
  rcases fault_or_parts (cStr url) with ⟨e, he⟩ | hp
  · rw [parseURL_of_fault he] at h
    have hok : e = .ok := by simpa [failed, ClParseURL.isValid] using h
    exact absurd (hok ▸ he) not_fault_ok
  · exact hp

/-- **What the parser accepts**: exactly the texts of parts, and the result is these parts. -/
theorem parseURL_valid_iff (url : Str) (r : ClParseURL) :
    parseURL url = r ∧ r.isValid = true ↔ ∃ p : Parts, cStr url = p.text ∧ r = p.result := by
  constructor
  · rintro ⟨rfl, hvalid⟩
    obtain ⟨p, hp⟩ := exists_parts hvalid
    exact ⟨p, hp, parseURL_text hp⟩
  · rintro ⟨p, hp, rfl⟩
    exact ⟨parseURL_text hp, rfl⟩

/-- **When the parser gives up**, and with which error: `NoAtSign`, `UnexpectedEndOfLine` and
`Uninitialized` are not among them. -/
theorem parseURL_error_iff (url : Str) (e : LUrlParserError) :
    (parseURL url).errorCode = e ↔
      Fault (cStr url) e ∨ e = .ok ∧ ∃ p : Parts, cStr url = p.text := by
  rcases fault_or_parts (cStr url) with ⟨e', he'⟩ | ⟨p, hp⟩
  · have heq := parseURL_of_fault he'
    constructor
    · intro h
      rw [heq] at h
      exact Or.inl (h ▸ he')
    · rintro (h | ⟨-, p, hp⟩)
      · rw [parseURL_of_fault h]
        rfl
      · rw [parseURL_text hp] at heq
        have hok : LUrlParserError.ok = e' := congrArg ClParseURL.errorCode heq
        exact absurd (hok ▸ he') not_fault_ok
  · have heq := parseURL_text hp
    constructor
    · intro h
      rw [heq] at h
      exact Or.inr ⟨h.symm, p, hp⟩
    · rintro (h | ⟨rfl, -⟩)
      · rw [parseURL_of_fault h]
        rfl
      · rw [heq]
        rfl

/-! ### Writing a URL -/

/-- A part that is not empty. -/
def nonEmpty (w : Str) : Option Str := if w = [] then none else some w

/-- The text behind the user information, without empty parts. -/
def unparseHost (r : ClParseURL) : Str :=
  r.host ++ (optText 58 (nonEmpty r.port) ++
    if r.path = [] ∧ r.query = [] ∧ r.fragment = [] then []
    else 47 :: (r.path ++ (optText 63 (nonEmpty r.query) ++ optText 35 (nonEmpty r.fragment))))

/-- A text for what the parser has read. The `@` is written also if an `@` of the host would be taken for
the end of a user name. -/
def unparse (r : ClParseURL) : Str :=
  r.scheme ++ 58 :: 47 :: 47 ::
    ((if r.userName = [] ∧ r.password = [] ∧ hasUserName (unparseHost r) = false then []
      else r.userName ++ (optText 58 (nonEmpty r.password) ++ [64])) ++ unparseHost r)

theorem getD_nonEmpty (w : Str) : (nonEmpty w).getD [] = w := by
  unfold nonEmpty
  split_ifs with h
  · exact h.symm
  · rfl

theorem mem_nonEmpty {w v : Str} (h : v ∈ nonEmpty w) : v = w := by
  unfold nonEmpty at h
  split_ifs at h with hw
  · exact absurd h (by simp)
  · exact (Option.mem_some_iff.mp h).symm

theorem isSchemeChar_tolower (c : UInt8) (hc : isSchemeChar c = true) :
    isSchemeChar (tolower c) = true ∧ tolower (tolower c) = tolower c := by
  have hfin : ∀ n : Fin 256, isSchemeChar (UInt8.ofFin n) = true →
      isSchemeChar (tolower (UInt8.ofFin n)) = true ∧
        tolower (tolower (UInt8.ofFin n)) = tolower (UInt8.ofFin n) := by decide +kernel
  exact hfin c.toFin hc

/-- A scheme in lower case is a scheme. -/
theorem isSchemeValid_tolower {scheme : Str} (h : isSchemeValid scheme = true) :
    isSchemeValid (scheme.map tolower) = true ∧
      (scheme.map tolower).map tolower = scheme.map tolower := by
  have hchar := List.all_eq_true.mp h
  constructor
  · refine List.all_eq_true.mpr fun c hc => ?_
    obtain ⟨d, hd, rfl⟩ := List.mem_map.mp hc
    exact (isSchemeChar_tolower d (hchar d hd)).1
  · rw [List.map_map]
    exact List.map_congr_left fun c hc => (isSchemeChar_tolower c (hchar c hc)).2

/-- The user information without empty parts. -/
def shortUser (p : Parts) : User where
  name := p.result.userName
  password := nonEmpty p.result.password
  name_ok := by
    rcases hu : p.user with - | u
    · simp [Parts.result, hu]
    · simpa [Parts.result, hu] using u.name_ok
  password_ok := by
    intro w hw
    rw [mem_nonEmpty hw]
    rcases hu : p.user with - | u
    · simp [Parts.result, hu]
    · rcases hpw : u.password with - | v
      · simp [Parts.result, hu, hpw]
      · simpa [Parts.result, hu, hpw] using u.password_ok v hpw

/-- The path, the query and the fragment without empty parts. -/
def shortTail (p : Parts) : Tail where
  path := p.result.path
  query := nonEmpty p.result.query
  fragment := nonEmpty p.result.fragment
  path_ok := by
    rcases ht : p.tail with - | t
    · simp [Parts.result, ht]
    · simpa [Parts.result, ht] using t.path_ok
  query_ok := by
    intro w hw
    rw [mem_nonEmpty hw]
    rcases ht : p.tail with - | t
    · simp [Parts.result, ht]
    · rcases hq : t.query with - | v
      · simp [Parts.result, ht, hq]
      · simpa [Parts.result, ht, hq] using t.query_ok v hq

/-- The parts without empty ones. -/
def short (p : Parts) : Parts where
  scheme := p.result.scheme
  user :=
    if p.result.userName = [] ∧ p.result.password = [] ∧ hasUserName (unparseHost p.result) = false then none
    else some (shortUser p)
  host := p.host
  port := nonEmpty p.result.port
  tail :=
    if p.result.path = [] ∧ p.result.query = [] ∧ p.result.fragment = [] then none else some (shortTail p)
  scheme_ok := (isSchemeValid_tolower p.scheme_ok).1
  host_ok := by
    rcases p.host_ok with h | h | ⟨h, hport, htail⟩
    · exact Or.inl h
    · exact Or.inr (Or.inl h)
    · refine Or.inr (Or.inr ⟨h, ?_, ?_⟩)
      · simp [Parts.result, hport, nonEmpty]
      · simp [Parts.result, htail]
  port_ok := by
    intro w hw
    rw [mem_nonEmpty hw]
    rcases hp : p.port with - | v
    · simp [Parts.result, hp]
    · simpa [Parts.result, hp] using p.port_ok v hp
  user_ok := by
    intro hnone
    split_ifs at hnone with hcond
    have hhost := hcond.2.2
    unfold unparseHost at hhost
    split_ifs at hhost ⊢ with htail
    · exact hhost
    · exact hhost

theorem text_short (p : Parts) : (short p).text = unparse p.result := by
  have hhost : (short p).hostText = unparseHost p.result := by
    unfold Parts.hostText unparseHost short
    dsimp only
    split_ifs with htail
    · rfl
    · rfl
  unfold Parts.text unparse
  rw [hhost]
  unfold short
  dsimp only
  split_ifs with huser
  · rfl
  · rfl

theorem result_short (p : Parts) : (short p).result = p.result := by
  have hscheme := (isSchemeValid_tolower p.scheme_ok).2
  have huser : ((short p).user.map User.name).getD [] = p.result.userName ∧
      ((short p).user.bind User.password).getD [] = p.result.password := by
    unfold short
    dsimp only
    split_ifs with h
    · exact ⟨h.1.symm, h.2.1.symm⟩
    · exact ⟨rfl, getD_nonEmpty _⟩
  have htail : ((short p).tail.map Tail.path).getD [] = p.result.path ∧
      ((short p).tail.bind Tail.query).getD [] = p.result.query ∧
      ((short p).tail.bind Tail.fragment).getD [] = p.result.fragment := by
    unfold short
    dsimp only
    split_ifs with h
    · exact ⟨h.1.symm, h.2.1.symm, h.2.2.symm⟩
    · exact ⟨rfl, getD_nonEmpty _, getD_nonEmpty _⟩
  rw [Parts.result, huser.1, huser.2, htail.1, htail.2.1, htail.2.2]
  simp only [short, getD_nonEmpty, Parts.result, hscheme]

/-- An empty part is left out. -/
theorem zero_optText {b : UInt8} {o : Option Str} (h : 0 ∉ optText b o) :
    0 ∉ optText b (nonEmpty (o.getD [])) := by
  rcases o with - | w
  · simp [nonEmpty, optText]
  · unfold nonEmpty
    split_ifs
    · simp [optText]
    · exact h

theorem zero_shortUser {p : Parts} (h : 0 ∉ optional User.text p.user) : 0 ∉ (shortUser p).text := by
  have hname : 0 ∉ p.result.userName := by
    rcases hu : p.user with - | u
    · simp [Parts.result, hu]
    · rw [hu] at h
      simp only [optional, User.text, List.mem_append, not_or] at h
      simpa [Parts.result, hu] using h.1
  have hpassword : 0 ∉ optText 58 (p.user.bind User.password) := by
    rcases hu : p.user with - | u
    · simp [optText]
    · rw [hu] at h
      simp only [optional, User.text, List.mem_append, not_or] at h
      exact h.2.1
  simp only [User.text, List.mem_append, not_or]
  exact ⟨hname, zero_optText hpassword, by decide⟩

theorem zero_shortTail {p : Parts} (h : 0 ∉ optional Tail.text p.tail) : 0 ∉ (shortTail p).text := by
  rcases ht : p.tail with - | t
  · simp [Tail.text, shortTail, Parts.result, ht, nonEmpty, optText]
  · rw [ht] at h
    simp only [optional, Tail.text, List.mem_cons, List.mem_append, not_or] at h
    simp only [Tail.text, List.mem_cons, List.mem_append, not_or, shortTail, Parts.result, ht]
    exact ⟨by decide, h.2.1, zero_optText h.2.2.1, zero_optText h.2.2.2⟩

theorem zero_short {p : Parts} (h : 0 ∉ p.text) : 0 ∉ (short p).text := by
  have hscheme : 0 ∉ (short p).scheme := by
    intro h0
    have hok := List.all_eq_true.mp (short p).scheme_ok 0 h0
    exact absurd hok (by decide)
  simp only [Parts.text, Parts.hostText, List.mem_append, List.mem_cons, not_or] at h ⊢
  obtain ⟨-, -, -, -, huser, hhost, hport, htail⟩ := h
  refine ⟨hscheme, by decide, by decide, by decide, ?_, hhost, zero_optText hport, ?_⟩
  · unfold short
    dsimp only
    split_ifs
    · simp [optional]
    · exact zero_shortUser huser
  · unfold short
    dsimp only
    split_ifs
    · simp [optional]
    · exact zero_shortTail htail

theorem cStr_of_notMem {s : Str} (h : 0 ∉ s) : cStr s = s := by
  refine List.takeWhile_eq_self_iff.mpr fun c hc => ?_
  rw [bne_iff_ne]
  rintro rfl
  exact h hc

/-- **What has been read can be written**, and it is read as the same. -/
theorem parseURL_unparse (url : Str) (h : (parseURL url).isValid = true) :
    parseURL (unparse (parseURL url)) = parseURL url := by
  obtain ⟨p, hp⟩ := exists_parts h
  have hr := parseURL_text hp
  have hzero : 0 ∉ p.text := by
    rw [← hp]
    intro h0
    simpa using List.mem_takeWhile_imp h0
  have htext : cStr (unparse (parseURL url)) = (short p).text := by
    rw [hr, ← text_short]
    exact cStr_of_notMem (zero_short hzero)
  rw [parseURL_text htext, result_short, hr]

/-- User information, a port and a query. -/
theorem parseURL_unparse_full :
    (parseURL (str "HTTP://u:@h@x:/?#f")).isValid = true ∧
      unparse (parseURL (str "HTTP://u:@h@x:/?#f")) = str "http://u@h@x/#f" ∧
      parseURL (unparse (parseURL (str "HTTP://u:@h@x:/?#f"))) = parseURL (str "HTTP://u:@h@x:/?#f") := by
  have hvalid : (parseURL (str "HTTP://u:@h@x:/?#f")).isValid = true := by decide +kernel
  exact ⟨hvalid, by decide +kernel, parseURL_unparse _ hvalid⟩

/-! ### The port -/

/-- A text that `atoi` reads as a positive number: blanks and a plus sign may stand before the digits, and
anything may follow them. -/
structure PortText (w : Str) (n : ℕ) where
  blanks : Str
  sign : Bool
  digits : Str
  rest : Str
  text : w = blanks ++ ((if sign then [43] else []) ++ (digits ++ rest))
  blanks_ok : ∀ c ∈ blanks, isspace c = true
  digits_ok : ∀ c ∈ digits, isdigit c = true
  stops : Stops isdigit rest
  value : decimal digits = n
  pos : 0 < n

theorem decimal_ne_nil {digits : Str} (h : 0 < decimal digits) : digits ≠ [] := by
  rintro rfl
  exact absurd h (by decide)

theorem isspace_of_isdigit {c : UInt8} (h : isdigit c = true) : isspace c = false ∧ c ≠ 45 ∧ c ≠ 43 := by
  have h9 : (9 : UInt8).toNat = 9 := rfl
  have h13 : (13 : UInt8).toNat = 13 := rfl
  have h48 : (48 : UInt8).toNat = 48 := rfl
  simp only [isdigit, Bool.and_eq_true, decide_eq_true_eq, UInt8.le_iff_toNat_le] at h
  have hne : ∀ d : UInt8, d.toNat < 48 → c ≠ d := by
    rintro d hd rfl
    omega
  refine ⟨?_, hne 45 (by decide), hne 43 (by decide)⟩
  have h32 := hne 32 (by decide)
  simp only [isspace, Bool.or_eq_false_iff, beq_eq_false_iff_ne, ne_eq, h32, not_false_eq_true,
    Bool.and_eq_false_iff, decide_eq_false_iff_not, UInt8.le_iff_toNat_le, true_and]
  omega

theorem readSign_digits {s : Str} (hs : ∀ c ∈ s.head?, c ≠ 45 ∧ c ≠ 43) : readSign s = (false, s) := by
  unfold readSign
  split
  · exact absurd rfl (hs 45 rfl).1
  · exact absurd rfl (hs 43 rfl).2
  · rfl

/-- What `atoi` makes of such a text. -/
theorem atoi_portText {w : Str} {n : ℕ} (h : PortText w n) (hn : n ≤ 2147483647) :
    atoi w = some (n : ℤ) := by
  obtain ⟨c, l, hcl⟩ := List.exists_cons_of_ne_nil (decimal_ne_nil (h.value ▸ h.pos))
  obtain ⟨hspace, hminus, hplus⟩ := isspace_of_isdigit (h.digits_ok c (by rw [hcl]; simp))
  have hstop : Stops isspace ((if h.sign then [43] else []) ++ (h.digits ++ h.rest)) := by
    rcases h.sign with - | -
    · rw [hcl]
      exact stops_cons hspace
    · exact stops_cons (by decide)
  have hsign : readSign ((if h.sign then [43] else []) ++ (h.digits ++ h.rest)) =
      (false, h.digits ++ h.rest) := by
    rcases h.sign with - | -
    · refine readSign_digits ?_
      rw [hcl]
      simpa using ⟨hminus, hplus⟩
    · rfl
  unfold atoi
  rw [h.text, (scan_append h.blanks_ok hstop).2, hsign]
  simp only [(scan_append h.digits_ok h.stops).1, h.value, Bool.false_eq_true, if_false]
  rw [if_pos (by omega)]

/-- Every positive number is read off such a text. -/
theorem exists_portText {w : Str} {n : ℕ} (h : atoi w = some (n : ℤ)) (hn : 0 < n) :
    Nonempty (PortText w n) := by
  obtain ⟨blanks, r, rfl, hblanks, hr⟩ := exists_scan isspace w
  unfold atoi at h
  rw [(scan_append hblanks hr).2] at h
  obtain ⟨digits, rest, hs, hdigits, hrest⟩ := exists_scan isdigit (readSign r).2
  simp only [hs, (scan_append hdigits hrest).1] at h
  split_ifs at h with hneg hrange
  · -- a minus sign leaves no positive number
    have hz := Option.some.inj h
    omega
  · have hz := Option.some.inj h
    have hvalue : decimal digits = n := by omega
    obtain ⟨sign, hsign⟩ : ∃ sign : Bool, r = (if sign then [43] else []) ++ (readSign r).2 := by
      unfold readSign at hneg ⊢
      split at hneg
      · exact absurd rfl hneg
      · exact ⟨true, rfl⟩
      · exact ⟨false, rfl⟩
    exact ⟨⟨blanks, sign, digits, rest, by rw [← hs, ← hsign], hblanks, hdigits, hrest, hvalue, hn⟩⟩

/-- A valid result with its port. -/
theorem getPort_text {url : Str} {p : Parts} (h : cStr url = p.text) : (parseURL url).getPort =
    (atoi (p.port.getD [])).map fun port => if port ≤ 0 ∨ 65535 < port then none else some port := by
  have hzero : 0 ∉ p.port.getD [] := by
    intro h0
    have hmem : 0 ∈ p.text := by
      rcases hp : p.port with - | w
      · rw [hp] at h0
        exact absurd h0 (by simp)
      · rw [hp] at h0
        simp only [Option.getD_some] at h0
        simp [Parts.text, Parts.hostText, hp, optText, h0]
    rw [← h] at hmem
    simpa using List.mem_takeWhile_imp hmem
  have hport : cStr p.result.port = p.port.getD [] := cStr_of_notMem hzero
  have hvalid : p.result.isValid = true := rfl
  rw [parseURL_text h, ClParseURL.getPort, hvalid, hport]
  rfl

/-- **Which number `GetPort` gives**: one from 1 to 65535 that the port of the URL begins with. -/
theorem getPort_eq_some_iff (url : Str) (n : ℕ) :
    (parseURL url).getPort = some (some (n : ℤ)) ↔
      ∃ p : Parts, cStr url = p.text ∧ Nonempty (PortText (p.port.getD []) n) ∧ n ≤ 65535 := by
  constructor
  · intro h
    have hvalid : (parseURL url).isValid = true := by
      by_contra hinvalid
      rw [ClParseURL.getPort, Bool.eq_false_iff.mpr hinvalid] at h
      exact absurd h (by simp)
    obtain ⟨p, hp⟩ := exists_parts hvalid
    rw [getPort_text hp] at h
    obtain ⟨z, hz, hport⟩ := Option.map_eq_some_iff.mp h
    split_ifs at hport with hrange
    obtain rfl := Option.some.inj hport
    exact ⟨p, hp, exists_portText hz (by omega), by omega⟩
  · rintro ⟨p, hp, ⟨hw⟩, hn⟩
    have hpos := hw.pos
    rw [getPort_text hp, atoi_portText hw (by omega), Option.map_some, if_neg (by omega)]

end Jkit.Common.UrlGrammar
