import ChipOS.Memory.Statistics
import ChipOS.Memory.Delivery
import ChipOS.Memory.BadFrees
import ChipOS.Fs.Failure
import ChipOS.Fs.Isolation
import ChipOS.Fs.DirectorySlots
import ChipOS.Fs.Tokens
import ChipOS.Fs.ExactPath
import ChipOS.Fs.EnterMade
import ChipOS.Editor.SaveAll
import ChipOS.Editor.Quit
import ChipOS.Editor.Primitives
import ChipOS.Editor.Screen
import ChipOS.Shell.Creation
import ChipOS.Shell.Rename
import ChipOS.Shell.Draft
import ChipOS.Editor.Highlight
import ChipOS.Shell.Highlight
import ChipOS.Shell.Arguments
import ChipOS.Editor.Escape
import ChipOS.Drivers.Console
import ChipOS.Lib.Cuts
import ChipOS.Shell.Calc
import ChipOS.Shell.Cat
import ChipOS.Shell.Grep
import ChipOS.Shell.Syntax
import ChipOS.Drivers.TypedLines
import ChipOS.Drivers.Uart
import ChipOS.Shell.Edit
import ChipOS.Shell.EditInput
import ChipOS.Strings.Strncpy
import ChipOS.Strings.Strstr
import ChipOS.Shell.Numbers
import ChipOS.Lib.Occurrences
import ChipOS.Fs.VolumeCalls
import ChipOS.Fs.Growth
import ChipOS.Fs.VolumePaths
import ChipOS.Shell.Listing
import ChipOS.Shell.CommandLines
import ChipOS.Shell.Echo
import ChipOS.Shell.Stops
import ChipOS.Kernel
import ChipOS.Shell.Language
import ChipOS.Shell.Verilog
import ChipOS.Shell.TypedText
import ChipOS.Shell.VolumeShell
