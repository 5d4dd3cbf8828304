import Mathlib.Logic.Function.Basic
import AxiomeOS.Security.Credentials

/-!
# The user database

`security_reload` reads `/etc/passwd` again and fills the table `g_users` with what it finds.  The
table is emptied first: when the file is not there, or its buffer cannot be allocated, nothing
replaces what was in it, and nobody can authenticate any more (`failed_reload_keeps_iff`).

The hash `sha256_hex` is a parameter.
-/

namespace AxiomeOS.Security

open List

/-! ### The database and the lookups -/

/-- `MAX_USERS`. -/
def maxUsers : ℕ := 64

/-- `struct user_entry`; a character array is the string before its terminator. -/
structure UserEntry where
  name : List Char
  uid : Uid
  gid : Uid
  role : UserRole
  passwdHash : List Char
  home : List Char
  shell : List Char

/-- `g_users` and `g_nusers`. -/
@[ext]
structure UserDb where
  users : Fin maxUsers → UserEntry
  nusers : ℕ
  le : nusers ≤ maxUsers

/-- The entries that the lookups go through. -/
def UserDb.entries (db : UserDb) : List UserEntry := (ofFn db.users).take db.nusers

/-- `security_lookup_name`. -/
def securityLookupName (db : UserDb) (name : List Char) : Option UserEntry :=
  db.entries.find? fun u => decide (u.name = name)

/-- `security_authenticate`: the uid as an `int`, or -1. -/
def securityAuthenticate (sha256Hex : List Char → List Char) (db : UserDb)
    (username password : List Char) : Uid :=
  match securityLookupName db username with
  | none => -1
  | some u =>
    if u.passwdHash = [] ∨ u.passwdHash = ['x'] then u.uid
    else if sha256Hex password = u.passwdHash then u.uid
    else -1

/-! ### Reading the file -/

/-- The digits of `atoi_simple`, in the arithmetic of a 32-bit `int`. -/
def atoiDigits (v : Uid) : List Char → Uid
  | [] => v
  | c :: s =>
    if '0' ≤ c ∧ c ≤ '9' then atoiDigits (v * 10 + BitVec.ofNat 32 (c.toNat - '0'.toNat)) s else v

/-- `atoi_simple`. -/
def atoiSimple : List Char → Uid
  | '-' :: s => -atoiDigits 0 s
  | s => atoiDigits 0 s

/-- The loop over the fields of a line.  Nothing behind the last colon is no field. -/
def lineFields : ℕ → List Char → List (List Char)
  | 0, _ => []
  | _ + 1, [] => []
  | n + 1, c :: p =>
    (c :: p).takeWhile (· ≠ ':') :: lineFields n (((c :: p).dropWhile (· ≠ ':')).drop 1)

/-- The role in the fifth field. -/
def parseRole (field : List Char) (uid : Uid) : UserRole :=
  if field = "guest".toList then .guest
  else if field = "user".toList then .user
  else if field = "admin".toList then .admin
  else if field = "system".toList then .system
  else posixUidToRole uid

/-- `parse_passwd_line`: a line with seven fields becomes an entry, if there is room. -/
def parsePasswdLine (db : UserDb) (line : List Char) : UserDb :=
  match lineFields 7 ((line.takeWhile (· ≠ '\x00')).take 255) with
  | [name, hash, uid, gid, role, home, shell] =>
    if h : db.nusers < maxUsers then
      { users := Function.update db.users ⟨db.nusers, h⟩
          { name := name.take 31, uid := atoiSimple uid, gid := atoiSimple gid
            role := parseRole role (atoiSimple uid), passwdHash := hash.take 64
            home := home.take 127, shell := shell.take 63 }
        nusers := db.nusers + 1
        le := h }
    else db
  | _ => db

/-- The loop over the lines of the file. -/
def parseText (db : UserDb) (text : List Char) : UserDb :=
  (text.splitOn '\n').foldl
    (fun db line => if line.head?.getD '\x00' = '\x00' then db else parsePasswdLine db line) db

/-- The node that `vfs_lookup` finds: `type == VFS_FILE`, and what `vfs_read` returns. -/
structure PasswdNode where
  isFile : Bool
  text : List Char

/-- What a call meets: the node, if the lookup succeeds, and whether `kmalloc` has a buffer. -/
structure PasswdEnv where
  node : Option PasswdNode
  buffer : Bool

/-- `security_load_passwd`. -/
def securityLoadPasswd (db : UserDb) (env : PasswdEnv) : UserDb :=
  let db : UserDb := { db with nusers := 0, le := Nat.zero_le _ }
  match env.node with
  | none => db
  | some n => if n.isFile = true ∧ env.buffer = true then parseText db n.text else db

/-- `security_reload`. -/
def securityReload (db : UserDb) (env : PasswdEnv) : UserDb := securityLoadPasswd db env

/-! ### A reload that fails -/

/-- The text of the file can be had. -/
def PasswdEnv.Available (env : PasswdEnv) : Prop :=
  ∃ n, env.node = some n ∧ n.isFile = true ∧ env.buffer = true

theorem securityReload_unavailable (db : UserDb) {env : PasswdEnv} (h : ¬ env.Available) :
    (securityReload db env).users = db.users ∧ (securityReload db env).nusers = 0 := by
  rw [securityReload, securityLoadPasswd]
  cases hn : env.node with
  | none => exact ⟨rfl, rfl⟩
  | some n =>
    dsimp only
    rw [if_neg fun hor => h ⟨n, hn, hor⟩]
    exact ⟨rfl, rfl⟩

/-- **A reload that cannot get the text keeps the database, and with it every account that could
authenticate, exactly when the database was empty.** -/
theorem failed_reload_keeps_iff (sha256Hex : List Char → List Char) (db : UserDb)
    (env : PasswdEnv) (hfail : ¬ env.Available) : (securityReload db env = db ∧
        ∀ username password, securityAuthenticate sha256Hex db username password ≠ -1 →
          securityAuthenticate sha256Hex (securityReload db env) username password
            = securityAuthenticate sha256Hex db username password) ↔
      db.nusers = 0 := by
  obtain ⟨husers, hnone⟩ := securityReload_unavailable db hfail
  constructor
  · rintro ⟨hsame, -⟩
    rw [← hsame]
    exact hnone
  · intro hempty
    have hsame : securityReload db env = db := UserDb.ext husers (hnone.trans hempty.symm)
    exact ⟨hsame, fun username password _ => by rw [hsame]⟩

/-- The database after `/etc/passwd` was read with this one line in it. -/
def rootOnly : UserDb :=
  parseText ⟨fun _ => ⟨[], 0, 0, .guest, [], [], []⟩, 0, Nat.zero_le _⟩
    "root:x:0:0:system:/root:/bin/sh\n".toList

theorem failed_reload_keeps_iff_empty : (∃ env : PasswdEnv, ¬ env.Available) ∧
      securityReload ⟨rootOnly.users, 0, Nat.zero_le _⟩ ⟨none, true⟩
        = ⟨rootOnly.users, 0, Nat.zero_le _⟩ := by
  have hfail : ¬ (⟨none, true⟩ : PasswdEnv).Available := fun ⟨_, hn, _⟩ => nomatch hn
  exact ⟨⟨_, hfail⟩, ((failed_reload_keeps_iff id _ _ hfail).mpr rfl).1⟩

/-- `root` can authenticate, and after a reload that cannot allocate its buffer it cannot. -/
theorem root_locked_out_by_failed_reload : securityAuthenticate id rootOnly "root".toList [] = 0 ∧
      securityAuthenticate id (securityReload rootOnly ⟨some ⟨true, []⟩, false⟩) "root".toList []
        = -1 := by
  decide +kernel

end AxiomeOS.Security
