/-!
# Work inside a disk image

* `GuestCommand`       one instruction to the guest of a disk image
* `finalizeCommands`   the instructions that make a command start with the guest
-/

namespace DiskLayers

inductive GuestCommand where
  /-- run a shell command -/
  | shell (command : String)
  /-- write a file -/
  | write (path content : String)
  deriving DecidableEq, Repr, Inhabited

/-- the script a guest runs at every start -/
def autostartPath : String := "/etc/rc.d/rc.local"

/-- root logs in on the serial console without a password -/
def serialAutologin : String :=
  "mkdir -p /etc/systemd/system/serial-getty@ttyS0.service.d && printf '[Service]\\nExecStart=\\nExecStart=-/sbin/agetty --autologin root --keep-baud 115200,38400,9600 %%I $TERM\\n' > /etc/systemd/system/serial-getty@ttyS0.service.d/autologin.conf"

/-- the boot loader does not wait and the kernel writes to the serial console -/
def quietBoot : String :=
  "if [ -f /etc/default/grub ]; then sed -i -e 's/^GRUB_TIMEOUT=.*/GRUB_TIMEOUT=0/' -e 's/ rhgb//' /etc/default/grub; fi; if command -v grubby >/dev/null 2>&1; then grubby --update-kernel=ALL --remove-args=rhgb --args='console=ttyS0 quiet'; fi"

/-- mandatory access control only warns -/
def permissiveSelinux : String :=
  "if [ -f /etc/selinux/config ]; then sed -i 's/^SELINUX=.*/SELINUX=permissive/' /etc/selinux/config; fi"

/-- the instructions that make `startup` run at every start of the guest -/
def finalizeCommands (startup : String) : List GuestCommand :=
  [.write autostartPath ("#!/bin/sh\n" ++ startup ++ "\n"),
   .shell ("chmod +x " ++ autostartPath),
   .shell serialAutologin,
   .shell quietBoot,
   .shell permissiveSelinux]

theorem length_finalizeCommands (startup : String) : (finalizeCommands startup).length = 5 := rfl

end DiskLayers
