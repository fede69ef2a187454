import Pypepper.Percent
import Std.Data.String.ToInt
/-!
# DbUri — database credentials in a URI

`helper/db/uri.py`, and `_engine_from_config` of `scheduler/store/sql.py` up to the URI it gives `create_engine`.  The
credentials are written with `quote_plus` and read by a parser that percent-decodes with `unquote`: the delimiters come
through, a space becomes a plus sign (`credentials_survive_iff`).
-/
namespace Pypepper
namespace DbUri

open Py (quotePlus unquote)

def quoteUserinfo (username password : String) : String × String := (quotePlus username, quotePlus password)

def buildPostgresUri (username password host : String) (port : Int) (db : String) (sslmode : Option String) : String :=
  let (user, pwd) := quoteUserinfo username password
  let uri := "postgresql+psycopg://" ++ user ++ ":" ++ pwd ++ "@" ++ host ++ ":" ++ toString port ++ "/" ++ db
  match sslmode.filter (· ≠ "") with
  | some sslmode => uri ++ "?sslmode=" ++ sslmode
  | none         => uri

def buildMysqlUri (username password host : String) (port : Int) (db charset : String) : String :=
  let (user, pwd) := quoteUserinfo username password
  "mysql+pymysql://" ++ user ++ ":" ++ pwd ++ "@" ++ host ++ ":" ++ toString port ++ "/" ++ db ++ "?charset=" ++ charset

/-! ## The engine -/

inductive Backend where
  | postgres
  | mysql

/-- The keyword arguments of `_engine_from_config`. -/
structure Config where
  uri      : Option String := none
  username : Option String := none
  password : Option String := none
  host     : Option String := none
  port     : Option Int := none
  db       : Option String := none
  sslmode  : Option String := none
  charset  : Option String := none

/-- The URI `_engine_from_config` gives `create_engine`, or the text of its `ValueError`. -/
def engineUri (backend : Backend) (cfg : Config) : Except String String :=
  match cfg.uri.filter (· ≠ "") with
  | some uri => .ok uri
  | none     =>
    match cfg.username.filter (· ≠ ""), cfg.password.filter (· ≠ ""), cfg.host.filter (· ≠ ""),
      cfg.db.filter (· ≠ ""), backend with
    | some username, some password, some host, some db, .postgres =>
      .ok (buildPostgresUri username password host ((cfg.port.filter (· ≠ 0)).getD 5432) db cfg.sslmode)
    | some username, some password, some host, some db, .mysql =>
      .ok (buildMysqlUri username password host ((cfg.port.filter (· ≠ 0)).getD 3306) db
        ((cfg.charset.filter (· ≠ "")).getD "utf8mb4"))
    | _, _, _, _, .postgres => .error "postgres job store requires uri=... or username, password, host, and db"
    | _, _, _, _, .mysql    => .error "mysql job store requires uri=... or username, password, host, and db"

/-! ## The parser -/

/-- What SQLAlchemy's parser makes of a URI. -/
structure Url where
  drivername : String
  username   : String
  password   : String
  host       : String
  port       : Int
  database   : String
deriving DecidableEq

/-- The text up to the first `sep`, and after it. -/
def cut (sep : Char) (l : List Char) : Option (List Char × List Char) :=
  match l.dropWhile (· ≠ sep) with
  | []       => none
  | _ :: l'  => some (l.takeWhile (· ≠ sep), l')

def afterSlashes : List Char → Option (List Char)
  | '/' :: '/' :: l => some l
  | _               => none

/-- `make_url`, as far as the builders' URIs go. -/
def makeUrl (uri : String) : Option Url := do
  let (drivername, l) ← cut ':' uri.toList
  let l ← afterSlashes l
  let (username, l) ← cut ':' l
  let (password, l) ← cut '@' l
  let (host, l) ← cut ':' l
  let (port, l) ← cut '/' l
  let port ← (String.ofList port).toInt?
  some {
    drivername := String.ofList drivername
    username   := unquote (String.ofList username)
    password   := unquote (String.ofList password)
    host       := String.ofList host
    port       := port
    database   := String.ofList (l.takeWhile (· ≠ '?')) }

theorem cut_append {sep : Char} {a : List Char} (h : sep ∉ a) (b : List Char) :
    cut sep (a ++ sep :: b) = some (a, b) := by
  have hall : ∀ c ∈ a, (decide (c ≠ sep)) = true := fun c hc => decide_eq_true fun hs => h (hs ▸ hc)
  unfold cut
  rw [List.dropWhile_append_of_pos hall, List.takeWhile_append_of_pos hall]
  simp

theorem port_chars (port : Int) : '/' ∉ (toString port).toList := by
  have hdigits : ∀ n : Nat, '/' ∉ n.repr.toList := by
    intro n h
    rw [Nat.toList_repr] at h
    have := Nat.isDigit_of_mem_toDigits (by decide) (by decide) h
    cases this
  show '/' ∉ port.repr.toList
  rw [Int.repr_eq_if]
  by_cases hneg : 0 ≤ port
  · rw [if_pos hneg]
    exact hdigits _
  · rw [if_neg hneg, String.toList_append, List.mem_append, not_or]
    exact ⟨by decide, hdigits _⟩

/-- A text made of a driver, quoted credentials, host, port and db, after which a query may come. -/
theorem makeUrl_of (drivername : String) (query : List Char) {uri username password host db : String} {port : Int}
    (huri : uri.toList = drivername.toList ++ ':' :: '/' :: '/' :: ((quotePlus username).toList ++ ':' ::
      ((quotePlus password).toList ++ '@' :: (host.toList ++ ':' :: ((toString port).toList ++ '/' ::
        (db.toList ++ query))))))
    (hdriver : ':' ∉ drivername.toList) (hhost : ':' ∉ host.toList) (hdb : '?' ∉ db.toList)
    (hquery : ∀ c ∈ query.head?, c = '?') :
    makeUrl uri = some ⟨drivername, unquote (quotePlus username), unquote (quotePlus password), host, port, db⟩ := by
  have huser : ':' ∉ (quotePlus username).toList := fun h => (Py.quotePlus_chars h).2 (by decide)
  have hpwd : '@' ∉ (quotePlus password).toList := fun h => (Py.quotePlus_chars h).2 (by decide)
  have hport : (toString port).toInt? = some port := Int.toInt?_repr port
  have hdbase : (db.toList ++ query).takeWhile (· ≠ '?') = db.toList := by
    have hall : ∀ c ∈ db.toList, decide (c ≠ '?') = true := fun c hc => decide_eq_true fun hs => hdb (hs ▸ hc)
    rw [List.takeWhile_append_of_pos hall]
    cases query with
    | nil      => simp
    | cons c l => simp [hquery c rfl]
  unfold makeUrl
  rw [huri, cut_append hdriver]
  simp only [Option.bind_eq_bind, Option.bind_some, afterSlashes, cut_append huser, cut_append hpwd, cut_append hhost,
    cut_append (port_chars port), hport, hdbase, String.ofList_toList]

variable {username password host db : String} {port : Int}

theorem makeUrl_postgres (username password : String) (port : Int) (hhost : ':' ∉ host.toList) (hdb : '?' ∉ db.toList)
    (sslmode : Option String) : makeUrl (buildPostgresUri username password host port db sslmode) = some
      ⟨"postgresql+psycopg", unquote (quotePlus username), unquote (quotePlus password), host, port, db⟩ := by
  have hdriver : ':' ∉ "postgresql+psycopg".toList := by decide
  unfold buildPostgresUri
  dsimp only
  cases sslmode.filter (· ≠ "") with
  | none      => exact makeUrl_of _ [] (by simp [quoteUserinfo]) hdriver hhost hdb (by simp)
  | some mode =>
    exact makeUrl_of _ ('?' :: ("sslmode=".toList ++ mode.toList)) (by simp [quoteUserinfo]) hdriver hhost hdb
      (by simp)

theorem makeUrl_mysql (username password : String) (port : Int) (hhost : ':' ∉ host.toList) (hdb : '?' ∉ db.toList)
    (charset : String) : makeUrl (buildMysqlUri username password host port db charset) = some
      ⟨"mysql+pymysql", unquote (quotePlus username), unquote (quotePlus password), host, port, db⟩ := by
  have hdriver : ':' ∉ "mysql+pymysql".toList := by decide
  unfold buildMysqlUri
  exact makeUrl_of _ ('?' :: ("charset=".toList ++ charset.toList)) (by simp [quoteUserinfo]) hdriver hhost hdb (by simp)

/-- The URL has the credentials, the host, the port and the database that were written. -/
def Url.Gives (url : Url) (username password host : String) (port : Int) (db : String) : Prop :=
  url.username = username ∧ url.password = password ∧ url.host = host ∧ url.port = port ∧ url.database = db

/-- The parser gives back what the URI was built from. -/
def GivesBack (uri username password host : String) (port : Int) (db : String) : Prop :=
  ∃ url, makeUrl uri = some url ∧ url.Gives username password host port db

theorem givesBack_iff {uri drivername : String} (h : makeUrl uri = some
    ⟨drivername, unquote (quotePlus username), unquote (quotePlus password), host, port, db⟩) :
    GivesBack uri username password host port db ↔ ' ' ∉ username.toList ∧ ' ' ∉ password.toList := by
  rw [← Py.unquote_quotePlus_iff username, ← Py.unquote_quotePlus_iff password]
  constructor
  · rintro ⟨url, hurl, huser, hpwd, -⟩
    rw [h] at hurl
    cases hurl
    dsimp only at huser hpwd
    exact ⟨huser, hpwd⟩
  · rintro ⟨huser, hpwd⟩
    refine ⟨_, h, ?_⟩
    simp only [Url.Gives, huser, hpwd, and_self]

/-- **The credentials come back from the URI exactly when they have no space**, the host having no colon and the
database no question mark. -/
theorem credentials_survive_iff (username password : String) (port : Int) (sslmode : Option String) (charset : String)
    (hhost : ':' ∉ host.toList) (hdb : '?' ∉ db.toList) :
    (GivesBack (buildPostgresUri username password host port db sslmode) username password host port db ↔
      ' ' ∉ username.toList ∧ ' ' ∉ password.toList) ∧
    (GivesBack (buildMysqlUri username password host port db charset) username password host port db ↔
      ' ' ∉ username.toList ∧ ' ' ∉ password.toList) := by
  have hpostgres := makeUrl_postgres username password port hhost hdb sslmode
  have hmysql := makeUrl_mysql username password port hhost hdb charset
  exact ⟨givesBack_iff hpostgres, givesBack_iff hmysql⟩

/-- Delimiters in the credentials come through. -/
theorem credentials_with_delimiters :
    (GivesBack (buildPostgresUri "user@name" "p@ss:w/ord" "localhost" 5432 "app" none)
      "user@name" "p@ss:w/ord" "localhost" 5432 "app" ↔ ' ' ∉ "user@name".toList ∧ ' ' ∉ "p@ss:w/ord".toList) ∧
    (GivesBack (buildMysqlUri "user@name" "p@ss:w/ord" "localhost" 5432 "app" "utf8mb4")
      "user@name" "p@ss:w/ord" "localhost" 5432 "app" ↔ ' ' ∉ "user@name".toList ∧ ' ' ∉ "p@ss:w/ord".toList) :=
  credentials_survive_iff "user@name" "p@ss:w/ord" 5432 none "utf8mb4" (by decide) (by decide)

/-- A password with a space does not. -/
theorem spaced_password_lost :
    ¬ GivesBack (buildPostgresUri "user" "pass word" "localhost" 5432 "app" none) "user" "pass word" "localhost" 5432
      "app" := by
  have hhost : ':' ∉ "localhost".toList := by decide
  have hdb : '?' ∉ "app".toList := by decide
  have hurl := makeUrl_postgres "user" "pass word" 5432 hhost hdb none
  intro h
  exact ((givesBack_iff hurl).1 h).2 (by decide)

/-! ## The engine's URI -/

/-- A configuration by parts: credentials, a host without a colon, a port and a database without a question mark. -/
structure Config.Parts (cfg : Config) (username password host : String) (port : Int) (db : String) : Prop where
  uri      : cfg.uri.filter (· ≠ "") = none
  username : cfg.username.filter (· ≠ "") = some username
  password : cfg.password.filter (· ≠ "") = some password
  host     : cfg.host.filter (· ≠ "") = some host
  port     : cfg.port.filter (· ≠ 0) = some port
  db       : cfg.db.filter (· ≠ "") = some db

/-- **An engine configured by its parts gets the builder's URI**, so that its credentials come back without a space. -/
theorem engine_credentials_iff (backend : Backend) {cfg : Config} (h : cfg.Parts username password host port db)
    (hhost : ':' ∉ host.toList) (hdb : '?' ∉ db.toList) :
    ∃ uri, engineUri backend cfg = .ok uri ∧
      (GivesBack uri username password host port db ↔ ' ' ∉ username.toList ∧ ' ' ∉ password.toList) := by
  unfold engineUri
  rw [h.uri, h.username, h.password, h.host, h.port, h.db]
  cases backend with
  | postgres => exact ⟨_, rfl, givesBack_iff (makeUrl_postgres username password port hhost hdb cfg.sslmode)⟩
  | mysql    => exact ⟨_, rfl, givesBack_iff (makeUrl_mysql username password port hhost hdb _)⟩

end DbUri
end Pypepper
