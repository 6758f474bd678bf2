import PortableFiles.Session.Run
import PortableFiles.Platform.Posix
import PortableFiles.Platform.Wasi
set_option autoImplicit false

/-!
# The start of a session

A small system: devices, the directory in which processes show themselves, and an empty directory
in which the session works, as the superuser without special privileges.
-/

namespace PortableFiles

namespace Machine

/-- A directory of the small system. -/
def directory (parent : InodeId) (perm : UInt32) (volume : Volume)
    (entries : List (String × InodeId)) : Inode where
  content := .directory parent ⟨entries.map fun e => (Bytes.ofString e.1, e.2)⟩
  perm := perm
  uid := 0
  gid := 0
  volume := volume

/-- A file of the small system. -/
def leaf (content : Content) (perm : UInt32) (volume : Volume) : Inode where
  content := content
  perm := perm
  uid := 0
  gid := 0
  volume := volume

/-- A file in which the process shows something of itself. -/
def shown (perm : UInt32) : Inode := { leaf (.file []) perm .processes with fixed := .permissions }

/-- The files of the small system.  The process shows itself in a directory of its own, which
nobody may change and in which links lead to its working directory and to the root. -/
def smallTree : Tree where
  root := 0
  inodes := ⟨[
    (0, directory 0 0o755 .disk
      [("dev", 1), ("proc", 4), ("tmp", 7), ("etc", 17), ("usr", 18), ("var", 19)]),
    (1, directory 0 0o755 .devices
      [("null", 2), ("full", 3), ("zero", 10), ("random", 11), ("urandom", 12), ("tty", 13)]),
    (2, leaf (.device .null) 0o666 .devices),
    (3, leaf (.device .full) 0o666 .devices),
    (4, directory 0 0o555 .processes
      [("self", 14), ("4194303", 5), ("mounts", 20), ("version", 21), ("cpuinfo", 22),
        ("meminfo", 23), ("uptime", 24), ("loadavg", 25), ("stat", 26)]),
    (5, { directory 4 0o555 .processes
            [("status", 6), ("cwd", 15), ("root", 16), ("mounts", 27), ("cmdline", 28),
              ("maps", 29), ("stat", 30), ("limits", 31), ("environ", 32)] with
          fixed := .everything }),
    (6, shown 0o444),
    (7, directory 0 0o1777 .disk [("s", 8)]),
    (8, directory 7 0o755 .disk [("w", 9)]),
    (9, directory 8 0o755 .disk []),
    (10, leaf (.device .null) 0o666 .devices),
    (11, leaf (.device .null) 0o666 .devices),
    (12, leaf (.device .null) 0o666 .devices),
    (13, leaf (.device .missing) 0o666 .devices),
    (14, leaf (.jump 5) 0o777 .processes),
    (15, leaf (.jump 9) 0o777 .processes),
    (16, leaf (.jump 0) 0o777 .processes),
    (17, directory 0 0o755 .disk []),
    (18, directory 0 0o755 .disk []),
    (19, directory 0 0o755 .disk []),
    (20, leaf (.symlink (Bytes.ofString "self/mounts")) 0o777 .processes),
    (21, leaf (.file []) 0o444 .processes),
    (22, leaf (.file []) 0o444 .processes),
    (23, leaf (.file []) 0o444 .processes),
    (24, leaf (.file []) 0o444 .processes),
    (25, leaf (.file []) 0o444 .processes),
    (26, leaf (.file []) 0o444 .processes),
    (27, shown 0o444),
    (28, shown 0o444),
    (29, shown 0o444),
    (30, shown 0o444),
    (31, shown 0o444),
    (32, shown 0o400)]⟩

/-- The accounts that a small system comes with. -/
def smallAccounts : Accounts where
  users := [(0, "root"), (1, "daemon"), (2, "bin"), (3, "sys"), (4, "sync"), (5, "games"),
    (6, "man"), (7, "lp"), (8, "mail"), (9, "news"), (10, "uucp"), (13, "proxy"),
    (33, "www-data"), (34, "backup"), (38, "list"), (39, "irc"), (42, "_apt"), (65534, "nobody")]
  groups := [(0, "root"), (1, "daemon"), (2, "bin"), (3, "sys"), (4, "adm"), (5, "tty"),
    (6, "disk"), (7, "lp"), (8, "mail"), (9, "news"), (10, "uucp"), (12, "man"), (13, "proxy"),
    (15, "kmem"), (20, "dialout"), (21, "fax"), (22, "voice"), (24, "cdrom"), (25, "floppy"),
    (26, "tape"), (27, "sudo"), (29, "audio"), (30, "dip"), (33, "www-data"), (34, "backup"),
    (37, "operator"), (38, "list"), (39, "irc"), (40, "src"), (42, "shadow"), (43, "utmp"),
    (44, "video"), (45, "sasl"), (46, "plugdev"), (50, "staff"), (60, "games"), (100, "users"),
    (65534, "nogroup")]

/-- What the status of a process of the small system shows. -/
def smallStatus : StatusLines where
  above := ["Name:\tsession".toList]
  below := "State:\tR (running)\n".toList
  apart := by decide

/-- The path of the directory in which a session works. -/
def workPath : Path := .ofString "/tmp/s/w"

/-- The small system, on which a process draws the given words. -/
def small (draws : Nat → UInt32) : Machine where
  tree := smallTree
  times := .empty
  lastNames := .empty
  clock := 1
  cwd := 9
  who := ⟨0, 0, false⟩
  mask := 0o022
  rememberedMask := none
  statusLines := smallStatus
  environment := []
  accounts := smallAccounts
  files := .empty
  mayOpen := true
  draws := draws
  drawn := 0

end Machine

namespace Session

/-- A session on the small system that uses a platform, with the mask `mask`. -/
def start (platform : Platform) (draws : Nat → UInt32) (mask : UInt32) : Session where
  platform := platform
  machine := ((platform.setUmask mask).run (Machine.small draws)).2
  infos := .empty
  handles := .empty

end Session

end PortableFiles
